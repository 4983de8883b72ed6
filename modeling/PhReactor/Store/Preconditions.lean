/-
  What a `pre` list DECLARES, and what of it is enforced.

  1. `Condition` is the vocabulary a definition can use, and `Condition.Holds` what each word of it
     says about the state an action meets.  `L1.expresses` reads one element of a `pre` list: an
     object with exactly one key, a known one, whose argument is of the right kind.

  2. Three readers share the list.  `check_precondition` evaluates every element that has neither
     the key `quorum` nor the key `space-member`; of an object it reads the first key only.  The
     store reads the FIRST quorum and the first space list it can parse.  What falls between the
     three is ignored.

  3. `Declared` says that nothing falls between: every element is of one key, every quorum and every
     space list is well formed, and all but the first of each hold by themselves.  On accepted
     actions that is exactly when every declared condition held (`preconditions_enforced_iff`).
-/
import PhReactor.Sample

set_option linter.unusedSectionVars false

namespace PhReactor

/-! ## The vocabulary -/

/-- A condition a reducer can declare. -/
inductive Condition where
  | fieldIs (field : String) (value : Value)
  | fieldNot (field : String) (value : Value)
  | fieldPresent (field : String)
  | fieldAbsent (field : String)
  | actorIn (field : String)
  | actorNotIn (field : String)
  | actorIs (who : String)
  | quorum (spec : QuorumSpec)
  | spaceMember (list : String)

/-- The list a quorum counts in: the one it names, or the members. -/
def quorumField (q : Value) : Option String :=
  match q.get? "field" with
  | none => some "members"
  | some f => f.asStr?

/-- A quorum with a group, a minimum and, if it names one, a field. -/
def quorumArg (q : Value) : Option QuorumSpec := do
  let group ← (← q.get? "group").asStr?
  let min ← (← q.get? "min").asU64?
  let field ← quorumField q
  some { group, min, field }

/-- `true` stands for the members; a string names a list of the space. -/
def spaceMemberArg : Value → Option String
  | .bool true => some "members"
  | .string list => some list
  | _ => none

namespace L1

variable (m : L1)

/-- A condition on the document and the actor, or a named check that leads to one in at most as
    many steps. -/
def test : ℕ → Value → Option Condition
  | 0, _ => none
  | budget + 1, p =>
    match p.asObject? with
    | some [(key, arg)] =>
      match key with
      | "field-is" => ((arg.get? "field").bind Value.asStr?).map fun f =>
          .fieldIs f ((arg.get? "value").getD .null)
      | "field-not" => ((arg.get? "field").bind Value.asStr?).map fun f =>
          .fieldNot f ((arg.get? "value").getD .null)
      | "field-present" => arg.asStr?.map .fieldPresent
      | "field-absent" => arg.asStr?.map .fieldAbsent
      | "actor-in" => arg.asStr?.map .actorIn
      | "actor-not-in" => arg.asStr?.map .actorNotIn
      | "actor-is" => arg.asStr?.map .actorIs
      | "check" => (arg.asStr?.bind m.checks.get?).bind (test budget)
      | _ => none
    | _ => none

/-- The one known condition an element of a `pre` list expresses, if it does. -/
def expresses (p : Value) : Option Condition :=
  match p.asObject? with
  | some [("quorum", q)] => (quorumArg q).map .quorum
  | some [("space-member", v)] => (spaceMemberArg v).map .spaceMember
  | _ => m.test 9 p

/-- An object with exactly one key and, if it is a named check, the same of what it leads to. -/
def oneKey : ℕ → Value → Bool
  | 0, _ => true
  | budget + 1, p =>
    match p.asObject? with
    | some [(key, arg)] =>
      if key = "check" then
        match arg.asStr?.bind m.checks.get? with
        | some sub => oneKey budget sub
        | none => true
      else true
    | _ => false

end L1

section

variable [Primitives]

/-- What a condition says of the state in which the action arrives. -/
def Condition.Holds (s : Inner) (a : Action) : Condition → Prop
  | .fieldIs f v => (currentValue (s.entryFor a.docId).doc f == v) = true
  | .fieldNot f v => (currentValue (s.entryFor a.docId).doc f == v) = false
  | .fieldPresent f => isPresent (s.entryFor a.docId).doc f = true
  | .fieldAbsent f => isPresent (s.entryFor a.docId).doc f = false
  | .actorIn f => inList (s.entryFor a.docId).doc f a.origin = true
  | .actorNotIn f => inList (s.entryFor a.docId).doc f a.origin = false
  | .actorIs who => a.origin = who
  | .quorum spec => s.quorumProblem spec a = none
  | .spaceMember list => ∃ id e, a.space.or (s.entries[a.docId]?.bind Entry.space) = some id ∧
      s.entries[id]? = some e ∧ a.origin ∈ Inner.listOf e.doc list

/-- The space list `requires_space_member` reads off an element. -/
def spaceListOf (p : Value) : Option String :=
  (p.get? "space-member").map fun v => v.asStr?.getD "members"

/-- Nothing that the reducer of `a` declares falls between its readers. -/
structure L1.Declared (m : L1) (s : Inner) (a : Action) : Prop where
  oneKey : ∀ p ∈ m.preList a.kind, m.oneKey 9 p = true
  quorum : ∀ p ∈ m.preList a.kind, ∀ q, p.get? "quorum" = some q → (quorumArg q).isSome = true
  spaceMember : ∀ p ∈ m.preList a.kind, ∀ v, p.get? "space-member" = some v →
    (spaceMemberArg v).isSome = true
  quorums : ∀ spec ∈ ((m.preList a.kind).filterMap parseQuorum).tail,
    (Condition.quorum spec).Holds s a
  spaceLists : ∀ list ∈ ((m.preList a.kind).filterMap spaceListOf).tail,
    (Condition.spaceMember list).Holds s a

/-! ## Evaluation -/

theorem eq_of_asObject? {p : Value} {o : List (String × Value)} (h : p.asObject? = some o) :
    p = .object o := by
  cases p <;> cases h
  rfl

theorem fieldName_eq_ok {arg : Value} {key f : String} (h : fieldName arg key = .ok f) :
    (arg.get? "field").bind Value.asStr? = some f := by
  unfold fieldName at h
  split at h
  · rename_i g hg
    injection h with h
    rw [hg, h]
  · cases h

theorem stringArg_eq_ok {arg : Value} {key f : String} (h : stringArg arg key = .ok f) :
    arg.asStr? = some f := by
  unfold stringArg at h
  split at h
  · rename_i g hg
    injection h with h
    rw [hg, h]
  · cases h

theorem ok_of_guard {P : Prop} [Decidable P] {r : Reject}
    (h : (if P then Except.ok () else .error r) = Except.ok ()) : P := by
  split at h
  · assumption
  · cases h

theorem not_of_guard {b : Bool} {r : Reject}
    (h : (if b = true then Except.error r else .ok ()) = Except.ok ()) : b = false := by
  split at h
  · cases h
  · rename_i hne
    exact Bool.eq_false_of_not_eq_true hne

/-- **An element that passes** expresses a condition that holds, as far as only one key of it could
    be read. -/
theorem holds_of_evalPrecond {m : L1} {s : Inner} {a : Action} : ∀ {budget : ℕ} {p : Value},
    m.oneKey budget p = true →
    m.evalPrecond (s.entryFor a.docId).doc a p budget = .ok () →
    ∃ c, m.test budget p = some c ∧ c.Holds s a := by
  intro budget
  induction budget with
  | zero =>
    intro p _ h
    cases h
  | succ budget ih =>
    intro p hone h
    unfold L1.oneKey at hone
    split at hone
    case h_2 => cases hone
    case h_1 key arg hobj =>
      obtain rfl := eq_of_asObject? hobj
      unfold L1.evalPrecond at h
      unfold L1.test
      dsimp only [Value.asObject?, Option.bind_some, List.head?_cons] at h ⊢
      split at h
      · -- field-is
        obtain ⟨f, hf, h⟩ := bind_eq_ok.mp h
        rw [fieldName_eq_ok hf]
        have hc := ok_of_guard h
        exact ⟨_, rfl, hc⟩
      · -- field-not
        obtain ⟨f, hf, h⟩ := bind_eq_ok.mp h
        rw [fieldName_eq_ok hf]
        have hc := not_of_guard h
        exact ⟨_, rfl, hc⟩
      · -- field-present
        obtain ⟨f, hf, h⟩ := bind_eq_ok.mp h
        rw [stringArg_eq_ok hf]
        have hc := ok_of_guard h
        exact ⟨_, rfl, hc⟩
      · -- field-absent
        obtain ⟨f, hf, h⟩ := bind_eq_ok.mp h
        rw [stringArg_eq_ok hf]
        have hc := not_of_guard h
        exact ⟨_, rfl, hc⟩
      · -- actor-in
        obtain ⟨f, hf, h⟩ := bind_eq_ok.mp h
        rw [stringArg_eq_ok hf]
        have hc := ok_of_guard h
        exact ⟨_, rfl, hc⟩
      · -- actor-not-in
        obtain ⟨f, hf, h⟩ := bind_eq_ok.mp h
        rw [stringArg_eq_ok hf]
        have hc := not_of_guard h
        exact ⟨_, rfl, hc⟩
      · -- actor-is
        obtain ⟨f, hf, h⟩ := bind_eq_ok.mp h
        rw [stringArg_eq_ok hf]
        have hc := ok_of_guard h
        exact ⟨_, rfl, hc⟩
      · -- a named check: what it leads to
        obtain ⟨name, hname, h⟩ := bind_eq_ok.mp h
        have hstr := stringArg_eq_ok hname
        cases hsub : m.checks.get? name with
        | none =>
          rw [hsub] at h
          cases h
        | some sub =>
          rw [hsub] at h
          rw [if_pos rfl, hstr, Option.bind_some, hsub] at hone
          rw [hstr, Option.bind_some, hsub, Option.bind_some]
          exact ih hone h
      · cases h

/-- What expresses a condition has one key. -/
theorem oneKey_of_test {m : L1} : ∀ {budget : ℕ} {p : Value} {c : Condition},
    m.test budget p = some c → m.oneKey budget p = true := by
  intro budget
  induction budget with
  | zero =>
    intro p c h
    cases h
  | succ budget ih =>
    intro p c h
    unfold L1.test at h
    unfold L1.oneKey
    split at h
    case h_2 => cases h
    case h_1 key arg hobj =>
      split
      · rename_i hkey
        subst hkey
        cases hsub : arg.asStr?.bind m.checks.get? with
        | none => rfl
        | some sub =>
          rw [hsub, Option.bind_some] at h
          exact ih h
      · rfl

/-! ## The three readers -/

theorem get?_one {key k : String} {v x : Value} :
    (Value.object [(k, v)]).get? key = some x ↔ key = k ∧ v = x := by
  by_cases hk : key = k
  · subst hk
    simp [Value.get?]
  · simp [Value.get?, List.lookup_cons, beq_eq_false_iff_ne.mpr hk, hk]

theorem hasKey_eq_isSome (p : Value) (key : String) : hasKey p key = (p.get? key).isSome := by
  cases p <;> rfl

/-- Of an object with one key, what `get?` finds is all there is. -/
theorem eq_of_oneKey {m : L1} {budget : ℕ} {p v : Value} {key : String}
    (hone : m.oneKey (budget + 1) p = true) (hv : p.get? key = some v) :
    p = .object [(key, v)] := by
  unfold L1.oneKey at hone
  split at hone
  case h_2 => cases hone
  case h_1 k arg hobj =>
    obtain rfl := eq_of_asObject? hobj
    obtain ⟨rfl, rfl⟩ := get?_one.mp hv
    rfl

/-- A well-formed quorum is what the store parses. -/
theorem parseQuorum_of_quorumArg {p q : Value} {spec : QuorumSpec}
    (hp : p.get? "quorum" = some q) (h : quorumArg q = some spec) :
    parseQuorum p = some spec := by
  unfold quorumArg at h
  simp only [Option.bind_eq_bind, Option.bind_eq_some_iff] at h
  obtain ⟨g, hg, group, hgroup, n, hn, min, hmin, field, hfield, hspec⟩ := h
  unfold parseQuorum
  rw [hp]
  simp only [Option.bind_eq_bind, Option.bind_some, hg, hgroup, hn, hmin]
  cases hspec
  unfold quorumField at hfield
  -- an absent field is the members, in either reading
  cases hf : q.get? "field" with
  | none =>
    rw [hf] at hfield
    injection hfield with hfield
    rw [← hfield]
    rfl
  | some f =>
    rw [hf] at hfield
    have hfield : f.asStr? = some field := hfield
    rw [Option.bind_some, hfield]
    rfl

/-- A well-formed space list is what the store reads. -/
theorem spaceListOf_of_spaceMemberArg {p v : Value} {list : String}
    (hp : p.get? "space-member" = some v) (h : spaceMemberArg v = some list) :
    spaceListOf p = some list := by
  unfold spaceListOf
  rw [hp]
  unfold spaceMemberArg at h
  split at h
  · injection h with h
    rw [← h]
    rfl
  · injection h with h
    rw [← h]
    rfl
  · cases h

/-- A member of a list is its first element or one of the others. -/
theorem head?_or_mem_tail {α : Type} {l : List α} {x : α} (h : x ∈ l) :
    l.head? = some x ∨ x ∈ l.tail := by
  cases l with
  | nil => cases h
  | cons y l =>
    rcases List.mem_cons.mp h with rfl | h
    · exact Or.inl rfl
    · exact Or.inr h

/-- The store checks the first quorum. -/
theorem first_quorum_holds {m : L1} {s : Inner} {a : Action} (h : s.Admits a (.l1 m))
    {spec : QuorumSpec} (hfirst : ((m.preList a.kind).filterMap parseQuorum).head? = some spec) :
    (Condition.quorum spec).Holds s a := by
  have hspec : (Model.l1 m).quorum a.kind = some spec := by
    rw [List.head?_filterMap] at hfirst
    exact hfirst
  have hq := h.quorum
  unfold Inner.checkQuorum at hq
  rw [hspec] at hq
  dsimp only at hq
  cases hp : s.quorumProblem spec a with
  | none => exact hp
  | some problem =>
    rw [hp] at hq
    cases hq

/-- The store checks the first space list. -/
theorem first_spaceList_holds {m : L1} {s : Inner} {a : Action} (h : s.Admits a (.l1 m))
    {list : String} (hfirst : ((m.preList a.kind).filterMap spaceListOf).head? = some list) :
    (Condition.spaceMember list).Holds s a := by
  have hlist : (Model.l1 m).requiresSpaceMember a.kind = some list := by
    rw [List.head?_filterMap] at hfirst
    exact hfirst
  have hs := h.spaceMember
  unfold Inner.checkSpaceMember at hs
  rw [hlist] at hs
  dsimp only at hs
  split at hs
  · cases hs
  · rename_i id hid
    split at hs
    · cases hs
    · rename_i e he
      split at hs
      · rename_i hany
        obtain ⟨o, ho, heq⟩ := List.any_eq_true.mp hany
        rw [beq_iff_eq] at heq
        exact ⟨id, e, hid, he, heq ▸ ho⟩
      · cases hs

theorem expresses_quorum {m : L1} {p q : Value} {spec : QuorumSpec} (hone : m.oneKey 9 p = true)
    (hq : p.get? "quorum" = some q) (hspec : quorumArg q = some spec) :
    m.expresses p = some (.quorum spec) := by
  obtain rfl := eq_of_oneKey hone hq
  show (quorumArg q).map Condition.quorum = _
  rw [hspec]
  rfl

theorem expresses_spaceMember {m : L1} {p v : Value} {list : String}
    (hone : m.oneKey 9 p = true) (hv : p.get? "space-member" = some v)
    (hlist : spaceMemberArg v = some list) : m.expresses p = some (.spaceMember list) := by
  obtain rfl := eq_of_oneKey hone hv
  show (spaceMemberArg v).map Condition.spaceMember = _
  rw [hlist]
  rfl

theorem expresses_test {m : L1} {p : Value} {c : Condition} (hq : p.get? "quorum" = none)
    (hs : p.get? "space-member" = none) (hc : m.test 9 p = some c) :
    m.expresses p = some c := by
  unfold L1.expresses
  split
  · rename_i q hobj
    rw [eq_of_asObject? hobj, get?_one.mpr ⟨rfl, rfl⟩] at hq
    cases hq
  · rename_i v hobj
    rw [eq_of_asObject? hobj, get?_one.mpr ⟨rfl, rfl⟩] at hs
    cases hs
  · exact hc

/-- What expresses a condition does so for one of the three readers. -/
theorem expresses_cases {m : L1} {p : Value} {c : Condition} (h : m.expresses p = some c) :
    (∃ q spec, p = .object [("quorum", q)] ∧ quorumArg q = some spec ∧ c = .quorum spec) ∨
    (∃ v list, p = .object [("space-member", v)] ∧ spaceMemberArg v = some list ∧
      c = .spaceMember list) ∨
    (p.get? "quorum" = none ∧ p.get? "space-member" = none ∧ m.test 9 p = some c) := by
  unfold L1.expresses at h
  split at h
  · rename_i q hobj
    obtain ⟨spec, hspec, rfl⟩ := Option.map_eq_some_iff.mp h
    exact Or.inl ⟨q, spec, eq_of_asObject? hobj, hspec, rfl⟩
  · rename_i v hobj
    obtain ⟨list, hlist, rfl⟩ := Option.map_eq_some_iff.mp h
    exact Or.inr (Or.inl ⟨v, list, eq_of_asObject? hobj, hlist, rfl⟩)
  · rename_i hnotq hnots
    refine Or.inr (Or.inr ?_)
    have hone := oneKey_of_test h
    unfold L1.oneKey at hone
    split at hone
    case h_2 => cases hone
    case h_1 key arg hobj =>
      obtain rfl := eq_of_asObject? hobj
      refine ⟨?_, ?_, h⟩
      · refine Option.eq_none_iff_forall_ne_some.mpr fun q hq => ?_
        obtain ⟨rfl, -⟩ := get?_one.mp hq
        exact hnotq arg rfl
      · refine Option.eq_none_iff_forall_ne_some.mpr fun v hv => ?_
        obtain ⟨rfl, -⟩ := get?_one.mp hv
        exact hnots arg rfl

/-- An element with the key `quorum` expresses a condition: then it is a quorum; the store parses
    it. -/
theorem quorum_of_expresses {m : L1} {p q : Value} {c : Condition} (h : m.expresses p = some c)
    (hq : p.get? "quorum" = some q) :
    ∃ spec, quorumArg q = some spec ∧ parseQuorum p = some spec ∧ c = .quorum spec := by
  rcases expresses_cases h with ⟨q', spec, rfl, hspec, rfl⟩ | ⟨v, list, rfl, -⟩ | ⟨hnone, -⟩
  · obtain ⟨-, rfl⟩ := get?_one.mp hq
    exact ⟨spec, hspec, parseQuorum_of_quorumArg hq hspec, rfl⟩
  · exact absurd (get?_one.mp hq).1 (by decide)
  · rw [hnone] at hq
    cases hq

/-- The same for a space list. -/
theorem spaceMember_of_expresses {m : L1} {p v : Value} {c : Condition}
    (h : m.expresses p = some c) (hv : p.get? "space-member" = some v) :
    ∃ list, spaceMemberArg v = some list ∧ spaceListOf p = some list ∧
      c = .spaceMember list := by
  rcases expresses_cases h with ⟨q, spec, rfl, -⟩ | ⟨v', list, rfl, hlist, rfl⟩ | ⟨-, hnone, -⟩
  · exact absurd (get?_one.mp hv).1 (by decide)
  · obtain ⟨-, rfl⟩ := get?_one.mp hv
    exact ⟨list, hlist, spaceListOf_of_spaceMemberArg hv hlist, rfl⟩
  · rw [hnone] at hv
    cases hv

theorem oneKey_of_expresses {m : L1} {p : Value} {c : Condition} (h : m.expresses p = some c) :
    m.oneKey 9 p = true := by
  rcases expresses_cases h with ⟨q, spec, rfl, -⟩ | ⟨v, list, rfl, -⟩ | ⟨-, -, htest⟩
  · rfl
  · rfl
  · exact oneKey_of_test htest

theorem get?_of_parseQuorum {p : Value} {spec : QuorumSpec} (h : parseQuorum p = some spec) :
    ∃ q, p.get? "quorum" = some q := by
  unfold parseQuorum at h
  simp only [Option.bind_eq_bind, Option.bind_eq_some_iff] at h
  obtain ⟨q, hq, -⟩ := h
  exact ⟨q, hq⟩

/-- **Enforced**, for an accepted action: the conditions declared all held exactly when nothing that
    is declared falls between the readers. -/
theorem enforced_iff {m : L1} {s : Inner} {a : Action} (hacc : s.Accepted a (.l1 m)) :
    (∀ p ∈ m.preList a.kind, ∃ c, m.expresses p = some c ∧ c.Holds s a) ↔ m.Declared s a := by
  constructor
  · intro h
    refine ⟨fun p hp => ?_, fun p hp q hq => ?_, fun p hp v hv => ?_, fun spec hspec => ?_,
      fun list hlist => ?_⟩
    · obtain ⟨c, hc, -⟩ := h p hp
      exact oneKey_of_expresses hc
    · obtain ⟨c, hc, -⟩ := h p hp
      obtain ⟨spec, hspec, -⟩ := quorum_of_expresses hc hq
      rw [hspec]
      rfl
    · obtain ⟨c, hc, -⟩ := h p hp
      obtain ⟨list, hlist, -⟩ := spaceMember_of_expresses hc hv
      rw [hlist]
      rfl
    · obtain ⟨p, hp, hparse⟩ := List.mem_filterMap.mp (List.mem_of_mem_tail hspec)
      obtain ⟨c, hc, hholds⟩ := h p hp
      obtain ⟨q, hq⟩ := get?_of_parseQuorum hparse
      obtain ⟨spec', -, hparse', rfl⟩ := quorum_of_expresses hc hq
      obtain rfl := Option.some.inj (hparse.symm.trans hparse')
      exact hholds
    · obtain ⟨p, hp, hread⟩ := List.mem_filterMap.mp (List.mem_of_mem_tail hlist)
      obtain ⟨c, hc, hholds⟩ := h p hp
      obtain ⟨v, hv, -⟩ := Option.map_eq_some_iff.mp hread
      obtain ⟨list', -, hread', rfl⟩ := spaceMember_of_expresses hc hv
      obtain rfl := Option.some.inj (hread.symm.trans hread')
      exact hholds
  · intro hdecl p hp
    have hone := hdecl.oneKey p hp
    cases hq : p.get? "quorum" with
    | some q =>
      obtain ⟨spec, hspec⟩ := Option.isSome_iff_exists.mp (hdecl.quorum p hp q hq)
      have hmem : spec ∈ (m.preList a.kind).filterMap parseQuorum :=
        List.mem_filterMap.mpr ⟨p, hp, parseQuorum_of_quorumArg hq hspec⟩
      refine ⟨.quorum spec, expresses_quorum hone hq hspec, ?_⟩
      rcases head?_or_mem_tail hmem with hfirst | hlater
      · exact first_quorum_holds hacc.toAdmits hfirst
      · exact hdecl.quorums spec hlater
    | none =>
      cases hs : p.get? "space-member" with
      | some v =>
        obtain ⟨list, hlist⟩ := Option.isSome_iff_exists.mp (hdecl.spaceMember p hp v hs)
        have hmem : list ∈ (m.preList a.kind).filterMap spaceListOf :=
          List.mem_filterMap.mpr ⟨p, hp, spaceListOf_of_spaceMemberArg hs hlist⟩
        refine ⟨.spaceMember list, expresses_spaceMember hone hs hlist, ?_⟩
        rcases head?_or_mem_tail hmem with hfirst | hlater
        · exact first_spaceList_holds hacc.toAdmits hfirst
        · exact hdecl.spaceLists list hlater
      | none =>
        -- evaluated by the interpreter
        have hcheck := forM_eq_ok hacc.precondition p hp
        rw [isQuorum, isSpaceMember, hasKey_eq_isSome, hasKey_eq_isSome, hq, hs] at hcheck
        obtain ⟨c, hc, hholds⟩ := holds_of_evalPrecond hone hcheck
        exact ⟨c, expresses_test hq hs hc, hholds⟩

/-- **When every declared precondition is enforced**: an accepted action met every condition its
    reducer declares, and no element was ignored, exactly when nothing declared falls between the
    three readers. -/
theorem preconditions_enforced_iff {s : Inner} {io : Io} {a : Action} {m : L1}
    (hm : s.models.find a.model = some (.l1 m)) (hok : (s.applyAction io a).2.isOk = true) :
    (∀ p ∈ m.preList a.kind, ∃ c, m.expresses p = some c ∧ c.Holds s a) ↔ m.Declared s a := by
  obtain ⟨m', hacc⟩ := Inner.accepted_of_isOk io hok
  obtain rfl := Option.some.inj (hacc.model.symm.trans hm)
  exact enforced_iff hacc

end

section

open Sample

attribute [local instance] Sample.primitives

/-- The sample group on alice's node. -/
def aliceGroupStore : Inner := (Store.fresh alice.key alice.name []).execAll (deliver [groupInit])

/-- Alice posts: her membership was checked. -/
theorem preconditions_enforced_post :
    (group.preList "post").length = 1 ∧ ∀ p ∈ group.preList "post", ∃ c,
      group.expresses p = some c ∧
        c.Holds aliceGroupStore (post alice "hi" 20 [("alice", 2)]) := by
  have hok : (aliceGroupStore.applyAction Io.ok (post alice "hi" 20 [("alice", 2)])).2.isOk =
      true := by decide +kernel
  have hm : aliceGroupStore.models.find (post alice "hi" 20 [("alice", 2)]).model =
      some (.l1 group) := by
    have hmodels : aliceGroupStore.models = ModelRegistry.seededWithBuiltins :=
      (Inner.sameSetup_applyAction _ Io.ok groupInit).models.trans (Store.fresh_models _ _ _)
    rw [hmodels]
    exact seededWithBuiltins_find ("group", group) (by simp)
  refine ⟨rfl, (preconditions_enforced_iff hm hok).mpr
    ⟨by decide +kernel, fun p hp q hq => ?_, fun p hp v hv => ?_, ?_, ?_⟩⟩
  · obtain rfl := List.mem_singleton.mp hp
    cases hq
  · obtain rfl := List.mem_singleton.mp hp
    cases hv
  · intro spec hspec
    cases hspec
  · intro list hlist
    cases hlist

/-- A vault that two members must open together.  The minimum is written as a string. -/
def vault : L1 :=
  expectL1 (.object [("name", .string "vault"),
    ("reducers", .object [("open", Def.reducer [] [.object [("quorum", .object
      [("group", .string "$self"), ("min", .string "2")])]] [])]),
    ("version", .string "1")])

/-- **A quorum that does not parse is no quorum**: alice opens the vault alone. -/
theorem precondition_ignored :
    ¬ ∀ (s : Inner) (io : Io) (a : Action) (m : L1), s.models.find a.model = some (.l1 m) →
      (s.applyAction io a).2.isOk = true →
      ∀ p ∈ m.preList a.kind, ∃ c, m.expresses p = some c ∧ c.Holds s a := by
  intro h
  obtain ⟨c, hc, -⟩ := h (Store.addModel (Store.fresh alice.key alice.name []) (.l1 vault)) Io.ok
    (act alice "vault" "open" (.object []) 20 [("alice", 1)] none) vault
    (by
      show (ModelRegistry.insert _ _).find _ = _
      rw [ModelRegistry.find_insert, if_pos ⟨rfl, rfl⟩]
      exact if_pos (Or.inl rfl))
    (by decide +kernel) _ List.mem_cons_self
  cases hc

end

end PhReactor
