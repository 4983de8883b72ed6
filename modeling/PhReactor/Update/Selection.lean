/-
  Which release a node runs next (`compare` in `src/update/mod.rs`, `check_for_update` in
  `src/daemon.rs`, `best_candidate` in `src/settings/updates.rs`, `staged_replacement` in
  `src/update/apply.rs`).

  1. A version text is a list of numbers, or nothing.  On the texts that are one, `compare` is the
     padded comparison (`compare_of_parse`), hence a total preorder (`compare_total`,
     `compare_swap`, `compare_trans`).

  2. Two loops look for the best release, one for the background check and one for the console.
     Both are a scan of the same candidates for a greatest one (`checkLoop_eq`, `bestLoop_eq`), so
     they agree, and nothing exceeds what they find (`chosen`).

  3. A version replaces another when its release is applied, or when a staged binary takes over.
     Either step goes up (`compare_of_replaced`), and so does every chain of them.

  All of it is `update_moves_forward`.
-/
import Mathlib.Logic.Relation
import PhReactor.Lib.Greatest
import PhReactor.Lib.Padded
import PhReactor.Package.Trust
import PhReactor.Query
import PhReactor.Update.Apply

set_option linter.unusedSectionVars false

namespace PhReactor.Update

/-! ## Versions -/

/-- A comparison of two versions is that of their numbers, the shorter padded with zeros. -/
theorem compare_of_parse {a b : String} {x y : List ℕ} (ha : parse a = some x)
    (hb : parse b = some y) : compare a b = some (Lib.comparePadded Ord.compare 0 x y) := by
  unfold compare
  rw [ha, hb]
  rfl

/-- Only versions compare. -/
theorem compare_eq_some {a b : String} {o : Ordering} :
    compare a b = some o ↔ ∃ x y, parse a = some x ∧ parse b = some y ∧
      Lib.comparePadded Ord.compare 0 x y = o := by
  constructor
  · intro h
    cases ha : parse a with
    | none =>
      unfold compare at h
      rw [ha] at h
      cases h
    | some x =>
      cases hb : parse b with
      | none =>
        unfold compare at h
        rw [ha, hb] at h
        cases h
      | some y =>
        rw [compare_of_parse ha hb] at h
        exact ⟨x, y, rfl, rfl, Option.some.inj h⟩
  · rintro ⟨x, y, ha, hb, rfl⟩
    exact compare_of_parse ha hb

theorem compare_eq_none {a b : String} : compare a b = none ↔ parse a = none ∨ parse b = none := by
  cases ha : parse a with
  | none =>
    refine iff_of_true (Option.eq_none_iff_forall_ne_some.mpr fun o h => ?_) (Or.inl rfl)
    obtain ⟨x, -, hx, -⟩ := compare_eq_some.mp h
    rw [ha] at hx
    cases hx
  | some x =>
    cases hb : parse b with
    | none =>
      refine iff_of_true (Option.eq_none_iff_forall_ne_some.mpr fun o h => ?_) (Or.inr rfl)
      obtain ⟨-, y, -, hy, -⟩ := compare_eq_some.mp h
      rw [hb] at hy
      cases hy
    | some y =>
      rw [compare_of_parse ha hb]
      exact iff_of_false (fun h => by cases h) (fun h => by rcases h with h | h <;> cases h)

/-- Every version equals itself. -/
theorem compare_self {a : String} (h : (parse a).isSome = true) : compare a a = some .eq := by
  obtain ⟨x, hx⟩ := Option.isSome_iff_exists.mp h
  have hself : Lib.comparePadded Ord.compare 0 x x = .eq := Std.ReflCmp.compare_self
  rw [compare_of_parse hx hx, hself]

/-- The other way round is the reverse. -/
theorem compare_swap (a b : String) : compare b a = (compare a b).map Ordering.swap := by
  cases h : compare a b with
  | none => exact compare_eq_none.mpr (compare_eq_none.mp h).symm
  | some o =>
    obtain ⟨x, y, ha, hb, rfl⟩ := compare_eq_some.mp h
    rw [compare_of_parse hb ha]
    exact congrArg some Std.OrientedCmp.eq_swap

/-- Not greater is transitive. -/
theorem compare_trans {a b c : String} {o o' : Ordering} (hab : compare a b = some o)
    (ho : o.isLE = true) (hbc : compare b c = some o') (ho' : o'.isLE = true) :
    ∃ o'', compare a c = some o'' ∧ o''.isLE = true := by
  obtain ⟨x, y, ha, hb, rfl⟩ := compare_eq_some.mp hab
  obtain ⟨y', w, hb', hc, rfl⟩ := compare_eq_some.mp hbc
  obtain rfl := Option.some.inj (hb.symm.trans hb')
  exact ⟨_, compare_of_parse ha hc, Std.TransCmp.isLE_trans ho ho'⟩

/-- Greater is transitive. -/
theorem compare_gt_trans {a b c : String} (hab : compare a b = some .gt)
    (hbc : compare b c = some .gt) : compare a c = some .gt := by
  obtain ⟨x, y, ha, hb, hxy⟩ := compare_eq_some.mp hab
  obtain ⟨y', w, hb', hc, hyw⟩ := compare_eq_some.mp hbc
  obtain rfl := Option.some.inj (hb.symm.trans hb')
  rw [compare_of_parse ha hc, Std.TransCmp.gt_trans hxy hyw]

/-- Zeros at the end do not count. -/
theorem compare_padded {a a' : String} {x : List ℕ} {k : ℕ} (ha : parse a = some x)
    (ha' : parse a' = some (x ++ List.replicate k 0)) (b : String) :
    compare a' b = compare a b := by
  cases hb : parse b with
  | none => rw [compare_eq_none.mpr (Or.inr hb), compare_eq_none.mpr (Or.inr hb)]
  | some y => rw [compare_of_parse ha' hb, compare_of_parse ha hb, Lib.comparePadded_append]

example : compare "v1.2" "1.2.0" = some .eq := by decide

/-! ## Looking for the best release -/

/-- A release with what its signature is about. -/
structure SignedRelease extends Release where
  signed : Artifact

section

variable [Primitives]

/-- What both loops are given: the trust store, `serde_json::from_str`, `VerifyingKey::verify`, the
    running version and the platform. -/
structure Selection where
  trust : TrustStore
  parse : String → Option SignedRelease
  verifies : PublicKey → List UInt8 → Sig → Bool
  current : String
  platform : String

namespace Selection

variable (c : Selection)

/-- `fields.status`, if it is a text. -/
def statusOf (row : DocRow) : Option String := row.fields["status"]?.bind Value.asStr?

/-- The release in the row of a release document. -/
def releaseOf (row : DocRow) : Option SignedRelease :=
  (row.fields["manifest"]?.bind Value.asStr?).bind c.parse

/-- The loop of `check_for_update`, with the best release so far. -/
def checkLoop (best : Option SignedRelease) : List DocRow → Option SignedRelease
  | [] => best
  | row :: rest =>
    if statusOf row = some "withdrawn" then checkLoop best rest
    else
      match c.releaseOf row with
      | none => checkLoop best rest
      | some r =>
        if !c.trust.isTrusted r.signed.publisherKey || !(r.signed.verify c.verifies).isOk ||
            !r.runsOn c.platform || !r.isNewerThan c.current then
          checkLoop best rest
        else
          let better : Bool := match best with
            | none => true
            | some b => compare r.version b.version == some .gt
          checkLoop (if better then some r else best) rest

/-- `check_for_update`, up to the choice. -/
def checkForUpdate (s : Inner) : Option SignedRelease :=
  c.checkLoop none (queryDocs s "release" none)

/-- Every release document with this node's view of it. -/
def offers (s : Inner) : List (String × SignedRelease × Bool) :=
  ((queryDocs s "release" none).filter fun row => statusOf row != some "withdrawn").filterMap
    fun row => (c.releaseOf row).map fun r =>
      (row.name, r, c.trust.isTrusted r.signed.publisherKey)

/-- The loop of `best_candidate`. -/
def bestLoop (best : Option (String × SignedRelease)) :
    List (String × SignedRelease × Bool) → Option (String × SignedRelease)
  | [] => best
  | (doc, r, trusted) :: rest =>
    if !trusted || !(r.signed.verify c.verifies).isOk || !r.runsOn c.platform ||
        !r.isNewerThan c.current then
      bestLoop best rest
    else
      let better : Bool := match best with
        | none => true
        | some (_, b) => compare r.version b.version == some .gt
      bestLoop (if better then some (doc, r) else best) rest

/-- `best_candidate`. -/
def bestCandidate (s : Inner) : Option (String × SignedRelease) := c.bestLoop none (c.offers s)

/-! ### The candidates -/

/-- The node would run it: the publisher is trusted, the signature verifies, it is for this
    platform and strictly newer. -/
structure Accepts (r : SignedRelease) : Prop where
  trusted : c.trust.isTrusted r.signed.publisherKey = true
  verified : (r.signed.verify c.verifies).isOk = true
  platform : r.runsOn c.platform = true
  newer : r.isNewerThan c.current = true

/-- A release that a document offers, is not withdrawn, and that the node would run. -/
def Candidate (s : Inner) (r : SignedRelease) : Prop :=
  (∃ row ∈ queryDocs s "release" none, statusOf row ≠ some "withdrawn" ∧ c.releaseOf row = some r) ∧
    c.Accepts r

/-- `Accepts`, as the loops decide it. -/
def accepts (r : SignedRelease) : Bool :=
  c.trust.isTrusted r.signed.publisherKey && (r.signed.verify c.verifies).isOk &&
    r.runsOn c.platform && r.isNewerThan c.current

/-- The check that both loops make. -/
theorem skips_eq (r : SignedRelease) : (!c.trust.isTrusted r.signed.publisherKey ||
    !(r.signed.verify c.verifies).isOk || !r.runsOn c.platform || !r.isNewerThan c.current) =
      !c.accepts r := by
  unfold accepts
  rw [Bool.not_and, Bool.not_and, Bool.not_and]

theorem accepts_iff {r : SignedRelease} : c.accepts r = true ↔ c.Accepts r := by
  unfold accepts
  rw [Bool.and_eq_true, Bool.and_eq_true, Bool.and_eq_true]
  exact ⟨fun ⟨⟨⟨h1, h2⟩, h3⟩, h4⟩ => ⟨h1, h2, h3, h4⟩, fun h => ⟨⟨⟨h.1, h.2⟩, h.3⟩, h.4⟩⟩

/-- The releases of the rows that the node would run, in order. -/
def candidates (rows : List DocRow) : List SignedRelease :=
  (rows.filter fun row => statusOf row != some "withdrawn").filterMap fun row =>
    (c.releaseOf row).filter c.accepts

theorem mem_candidates {s : Inner} {r : SignedRelease} :
    r ∈ c.candidates (queryDocs s "release" none) ↔ c.Candidate s r := by
  unfold candidates Candidate
  simp only [List.mem_filterMap, List.mem_filter, bne_iff_ne, Option.filter_eq_some_iff,
    accepts_iff]
  constructor
  · rintro ⟨row, ⟨hrow, hstatus⟩, hr, hacc⟩
    exact ⟨⟨row, hrow, hstatus, hr⟩, hacc⟩
  · rintro ⟨⟨row, hrow, hstatus, hr⟩, hacc⟩
    exact ⟨row, ⟨hrow, hstatus⟩, hr, hacc⟩

/-- Strictly greater, as both loops compare. -/
def greater (r b : SignedRelease) : Bool := compare r.version b.version == some .gt

/-- **The loop of the check is a scan of the candidates.** -/
theorem checkLoop_eq (rows : List DocRow) (best : Option SignedRelease) :
    c.checkLoop best rows = Lib.greatest greater best (c.candidates rows) := by
  induction rows generalizing best with
  | nil => cases best <;> rfl
  | cons row rest ih =>
    unfold checkLoop candidates
    by_cases hstatus : statusOf row = some "withdrawn"
    · rw [if_pos hstatus, List.filter_cons_of_neg (by simp [hstatus]), ih]
      rfl
    · rw [if_neg hstatus, List.filter_cons_of_pos (by simp [hstatus])]
      cases hr : c.releaseOf row with
      | none =>
        rw [List.filterMap_cons_none (by rw [hr]; rfl)]
        exact ih best
      | some r =>
        dsimp only
        cases hacc : c.accepts r with
        | false =>
          rw [skips_eq, hacc, if_pos (by decide),
            List.filterMap_cons_none (by rw [hr, Option.filter_some, hacc]; rfl)]
          exact ih best
        | true =>
          rw [skips_eq, hacc, if_neg (by decide),
            List.filterMap_cons_some (by rw [hr, Option.filter_some, hacc]; rfl), ih]
          cases best with
          | none => rfl
          | some b =>
            rw [Lib.greatest_some_cons]
            rfl

/-- **So is the loop of the console.** -/
theorem bestLoop_eq (rows : List DocRow) (best : Option (String × SignedRelease)) :
    (c.bestLoop best ((rows.filter fun row => statusOf row != some "withdrawn").filterMap
        fun row => (c.releaseOf row).map fun r =>
          (row.name, r, c.trust.isTrusted r.signed.publisherKey))).map Prod.snd =
      Lib.greatest greater (best.map Prod.snd) (c.candidates rows) := by
  unfold candidates
  induction rows.filter fun row => statusOf row != some "withdrawn" generalizing best with
  | nil => cases best <;> rfl
  | cons row rest ih =>
    cases hr : c.releaseOf row with
    | none =>
      rw [List.filterMap_cons_none (by rw [hr]; rfl), List.filterMap_cons_none (by rw [hr]; rfl)]
      exact ih best
    | some r =>
      rw [List.filterMap_cons_some (by rw [hr]; rfl)]
      unfold bestLoop
      cases hacc : c.accepts r with
      | false =>
        rw [skips_eq, hacc, if_pos (by decide),
          List.filterMap_cons_none (by rw [hr, Option.filter_some, hacc]; rfl)]
        exact ih best
      | true =>
        rw [skips_eq, hacc, if_neg (by decide),
          List.filterMap_cons_some (by rw [hr, Option.filter_some, hacc]; rfl), ih]
        cases best with
        | none => rfl
        | some b =>
          rw [apply_ite (Option.map Prod.snd), Option.map_some, Option.map_some,
            Lib.greatest_some_cons]
          rfl

/-- **Both look for the same release.** -/
theorem checkForUpdate_eq (s : Inner) : c.checkForUpdate s = (c.bestCandidate s).map Prod.snd := by
  unfold checkForUpdate bestCandidate offers
  rw [checkLoop_eq, bestLoop_eq]
  rfl

/-- Its version is one. -/
def Versioned (r : SignedRelease) : Prop := (Update.parse r.version).isSome = true

/-- What is newer than something has a version. -/
theorem isSome_parse_of_accepts {r : SignedRelease} (h : c.Accepts r) : Versioned r := by
  unfold Versioned
  obtain ⟨x, -, hx, -⟩ := compare_eq_some.mp (beq_iff_eq.mp h.newer)
  rw [hx]
  rfl

/-- Of two versions, one is not greater exactly when it is less or equal. -/
theorem greater_eq_false {r b : SignedRelease} (hr : Versioned r) (hb : Versioned b) :
    greater r b = false ↔ ∃ o, compare r.version b.version = some o ∧ o.isLE = true := by
  obtain ⟨x, hx⟩ := Option.isSome_iff_exists.mp hr
  obtain ⟨y, hy⟩ := Option.isSome_iff_exists.mp hb
  unfold greater
  rw [compare_of_parse hx hy]
  cases Lib.comparePadded Ord.compare 0 x y <;> simp [Ordering.isLE]

theorem greater_asymm (x y : SignedRelease) (hx : Versioned x) (hy : Versioned y)
    (hgt : greater x y = true) : greater y x = false := by
  -- the reverse of greater is less
  refine (greater_eq_false hy hx).mpr ⟨.lt, ?_, rfl⟩
  rw [compare_swap, beq_iff_eq.mp hgt]
  rfl

theorem greater_trans (x y w : SignedRelease) (hx : Versioned x) (hy : Versioned y)
    (hw : Versioned w) (hxy : greater x y = false) (hyw : greater y w = false) :
    greater x w = false := by
  obtain ⟨o, ho, hole⟩ := (greater_eq_false hx hy).mp hxy
  obtain ⟨o', ho', hole'⟩ := (greater_eq_false hy hw).mp hyw
  exact (greater_eq_false hx hw).mpr (compare_trans ho hole ho' hole')

/-- **The release that is found is a candidate, and no candidate exceeds it.** -/
theorem chosen {s : Inner} {r : SignedRelease} (h : c.checkForUpdate s = some r) :
    c.Candidate s r ∧ ∀ r', c.Candidate s r' →
      ∃ o, compare r'.version r.version = some o ∧ o.isLE = true := by
  unfold checkForUpdate at h
  rw [checkLoop_eq] at h
  have hversions : ∀ x ∈ c.candidates (queryDocs s "release" none), Versioned x :=
    fun x hx => c.isSome_parse_of_accepts (c.mem_candidates.mp hx).2
  have hnone : ∀ b : SignedRelease, none = some b → Versioned b := fun b hb => by cases hb
  obtain ⟨hmem, hle⟩ := Lib.greatest_spec greater_asymm greater_trans hversions hnone h
  have hr := c.mem_candidates.mp (hmem.resolve_left (by simp))
  refine ⟨hr, fun r' hr' => ?_⟩
  exact (greater_eq_false (c.isSome_parse_of_accepts hr'.2)
    (c.isSome_parse_of_accepts hr.2)).mp (hle r' (Or.inr (c.mem_candidates.mpr hr')))

/-- Nothing is found only if there is no candidate. -/
theorem checkForUpdate_eq_none {s : Inner} :
    c.checkForUpdate s = none ↔ ¬ ∃ r, c.Candidate s r := by
  unfold checkForUpdate
  rw [checkLoop_eq, ← Option.not_isSome_iff_eq_none, Lib.greatest_isSome, Option.isSome_none,
    Bool.false_or, Bool.not_eq_true', Bool.not_eq_false, List.isEmpty_iff,
    List.eq_nil_iff_forall_not_mem, not_exists]
  exact forall_congr' fun r => not_congr c.mem_candidates

end Selection

/-! ## Replacing what runs -/

/-- `PathBuf::from`. -/
def Path.ofText (s : String) : Path :=
  (if s.toList.head? = some '/' then ["/"] else []) ++
    ((s.toList.splitOn '/').map String.ofList).filter fun name => name != "" && name != "."

/-- A staged binary that supersedes the running one, if there is one: its path and its version.
    `json` is `serde_json::from_str`. -/
def stagedReplacement (json : String → Option Value) (fs : Fs) (stateDir : Path)
    (current : String) : Option (Path × String) := do
  let marker ← fs ((stateDir.join "bin").join "staged.json")
  let raw ← String.fromUTF8? ⟨marker.bytes.toArray⟩
  let v ← json raw
  let version ← (v.get? "version").bind Value.asStr?
  let path ← ((v.get? "path").bind Value.asStr?).map Path.ofText
  if (fs path).isNone then none
  else if compare version current = some .gt then some (path, version)
  else none

/-- A release is applied: `apply`, asked by the running version, succeeds. -/
def Applied (running version : String) : Prop :=
  ∃ release blobs exe stateDir platform outcomes fs target rest fs',
    (apply release blobs exe stateDir running platform).run perform outcomes fs =
      (some (.ok target, rest), fs') ∧ release.version = version

/-- A staged binary takes over.  It reports the version that the marker names, or a newer one: an
    update of the staged binary itself lands on the same path and leaves the marker. -/
def Staged (running version : String) : Prop :=
  ∃ json fs stateDir path named, stagedReplacement json fs stateDir running = some (path, named) ∧
    (version = named ∨ compare version named = some .gt)

/-- What runs next. -/
def Replaced (running version : String) : Prop := Applied running version ∨ Staged running version

/-- `apply` succeeds with a newer release only. -/
theorem isNewerThan_of_apply {release : Release} {blobs : BlobStore} {exe stateDir : Path}
    {current platform : String} {outcomes rest : List Outcome} {fs fs' : Fs} {target : Path}
    (h : (apply release blobs exe stateDir current platform).run perform outcomes fs =
      (some (.ok target, rest), fs')) : release.isNewerThan current = true := by
  by_contra hold
  have hrefused : ∃ e, apply release blobs exe stateDir current platform = .done (.error e) := by
    unfold apply prepare fetch
    by_cases hplatform : release.runsOn platform = true
    · rw [hplatform, Bool.eq_false_iff.mpr hold]
      exact ⟨_, rfl⟩
    · rw [Bool.eq_false_iff.mpr hplatform]
      exact ⟨_, rfl⟩
  obtain ⟨e, he⟩ := hrefused
  rw [he] at h
  cases h

/-- The marker names a newer version. -/
theorem compare_of_stagedReplacement {json : String → Option Value} {fs : Fs} {stateDir path : Path}
    {current version : String}
    (h : stagedReplacement json fs stateDir current = some (path, version)) :
    compare version current = some .gt := by
  unfold stagedReplacement at h
  simp only [Option.bind_eq_bind, Option.bind_eq_some_iff] at h
  obtain ⟨marker, -, raw, -, v, -, named, -, p, -, hgt⟩ := h
  split at hgt
  · cases hgt
  · split at hgt
    · next hnewer =>
      obtain ⟨-, rfl⟩ := Prod.mk.inj (Option.some.inj hgt)
      exact hnewer
    · cases hgt

/-- **Every replacement goes up.** -/
theorem compare_of_replaced {running version : String} (h : Replaced running version) :
    compare version running = some .gt := by
  rcases h with ⟨release, _, _, _, _, _, _, _, _, _, hrun, rfl⟩ |
    ⟨json, fs, stateDir, path, named, hstaged, hversion⟩
  · exact beq_iff_eq.mp (isNewerThan_of_apply hrun)
  · have hnamed := compare_of_stagedReplacement hstaged
    rcases hversion with rfl | hnewer
    · exact hnamed
    · exact compare_gt_trans hnewer hnamed

/-- **Update selection is consistent and only moves forward.** -/
theorem update_moves_forward :
    -- the comparison is a total preorder on versions
    (∀ a b, compare a b = none ↔ parse a = none ∨ parse b = none) ∧
    (∀ a, (parse a).isSome = true → compare a a = some .eq) ∧
    (∀ a b, compare b a = (compare a b).map Ordering.swap) ∧
    (∀ a b c o o', compare a b = some o → o.isLE = true → compare b c = some o' →
      o'.isLE = true → ∃ o'', compare a c = some o'' ∧ o''.isLE = true) ∧
    (∀ a a' x k, parse a = some x → parse a' = some (x ++ List.replicate k 0) →
      ∀ b, compare a' b = compare a b ∧ compare b a' = compare b a) ∧
    -- both loops find the same release, if there is one to find
    (∀ (c : Selection) (s : Inner), c.checkForUpdate s = (c.bestCandidate s).map Prod.snd ∧
      (c.checkForUpdate s = none ↔ ¬ ∃ r, c.Candidate s r) ∧
      ∀ r, c.checkForUpdate s = some r → c.Candidate s r ∧ ∀ r', c.Candidate s r' →
        ∃ o, compare r'.version r.version = some o ∧ o.isLE = true) ∧
    -- and what runs is replaced by newer versions only
    (∀ running version, Relation.TransGen Replaced running version →
      compare version running = some .gt) := by
  refine ⟨fun _ _ => compare_eq_none, fun _ h => compare_self h, compare_swap,
    fun _ _ _ _ _ => compare_trans, fun a a' x k ha ha' b => ?_, fun c s =>
    ⟨c.checkForUpdate_eq s, c.checkForUpdate_eq_none, fun r hr => c.chosen hr⟩,
    fun running version hchain => ?_⟩
  · have hleft := compare_padded ha ha' b
    refine ⟨hleft, ?_⟩
    rw [compare_swap a' b, hleft, ← compare_swap a b]
  · induction hchain with
    | single h => exact compare_of_replaced h
    | tail _ h ih => exact compare_gt_trans (compare_of_replaced h) ih

end

section

attribute [local instance] Sample.primitives

/-- The newer build is applied, nothing fails. -/
theorem build_applied : Applied "1.0.0" build.version := by
  obtain ⟨target, rest, hrun⟩ : ∃ target rest,
      (update (List.replicate 20 .ok)).1 = some (.ok target, rest) :=
    ⟨binary, List.replicate 9 .ok, by decide +kernel⟩
  exact ⟨build, blobDir, binary, ["/", "state"], "linux", List.replicate 20 .ok, before, target,
    rest, _, Prod.ext hrun rfl, rfl⟩

theorem build_supersedes : compare "9.9.9" "1.0.0" = some .gt :=
  update_moves_forward.2.2.2.2.2.2 "1.0.0" "9.9.9" (.single (Or.inl build_applied))

end

end PhReactor.Update
