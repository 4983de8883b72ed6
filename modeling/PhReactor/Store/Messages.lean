/-
  Message columns: parallel arrays that one reducer appends to.

  `chat@1` and `group@1` keep their messages in parallel arrays (`msg_from`, `msg_text`, ...).  A
  `post` appends to every one of them, an `init` empties every one of them, and no other reducer
  touches any (`Columns`).  Each append is a whole-array write that is then merged
  last-writer-wins — but all the columns are written by the same actions, so they carry the same
  version and the same stamp and win or lose TOGETHER.

  1. `Feed` is the common content of the columns: the posts, the version, the stamp; `feedStep` is
     what one action does to it.  `shows_step`: the columns of the document follow the feed.

  2. `FeedInv`: along a fold in canonical order stamps do not decrease, and among equal stamps only
     a larger clock wins; so no action enters a feed twice (`feedInv_step`).
-/
import PhReactor.Store.LiveFold
import PhReactor.Store.Writes

set_option linter.unusedSectionVars false

namespace PhReactor

/-! ## Columns -/

/-- The columns `cols` (field and template) of the model `m`. -/
structure Columns (m : L1) (cols : List (String × String)) : Prop where
  notName : ∀ c ∈ cols, c.1 ≠ nameKey
  sound : ∀ kind, (m.reducer kind).isSome → m.Sound kind
  post : ∀ c ∈ cols, (m.writes "post").lookup c.1 = some (Def.append c.2)
  init : ∀ c ∈ cols, (m.writes "init").lookup c.1 = some (Def.set (.array []))
  other : ∀ kind, kind ≠ "post" → kind ≠ "init" → ∀ c ∈ cols, (m.writes kind).lookup c.1 = none

/-- Columns of a definition whose reducers other than `post` and `init` do not write them. -/
theorem columns_of_reducers {m : L1} {reducers : List (String × Value)}
    {cols : List (String × String)} (hm : m.reducers = .object reducers)
    (hname : ∀ c ∈ cols, c.1 ≠ nameKey)
    (hsound : ∀ p ∈ reducers, ∀ w ∈ writesOf p.2, writeOk w.2 = true)
    (hpost : ∀ c ∈ cols, (m.writes "post").lookup c.1 = some (Def.append c.2))
    (hinit : ∀ c ∈ cols, (m.writes "init").lookup c.1 = some (Def.set (.array [])))
    (hother : ∀ p ∈ reducers, ∀ w ∈ writesOf p.2, p.1 ≠ "post" → p.1 ≠ "init" →
      ∀ c ∈ cols, c.1 ≠ w.1) : Columns m cols where
  notName := hname
  sound := fun _ hk => L1.sound_of_reducers hm hsound hk
  post := hpost
  init := hinit
  other := by
    intro kind hkp hki c hc
    rw [List.lookup_eq_none_iff]
    intro w hw
    have hne := L1.writes_forall hm
      (P := fun kind w => kind ≠ "post" → kind ≠ "init" → ∀ c ∈ cols, c.1 ≠ w.1) hother kind w hw
    exact bne_iff_ne.mpr (hne hkp hki c hc)

/-- The position in time of an action, as fields record it. -/
def Action.stamp (a : Action) : U64 ×ₗ Origin := toLex (a.ts, a.origin)

/-- The common content of the columns. -/
structure Feed where
  posts : List Action
  version : VecClock
  stamp : U64 ×ₗ Origin

/-- Does a write of `a` prevail over the current content. -/
def Feed.yields : Option Feed → Action → Bool
  | none, _ => true
  | some f, a =>
    !f.version.covers a.clock && (a.clock.covers f.version || decide (f.stamp < a.stamp))

/-- What an action that is applied does to the feed. -/
def feedStep (f : Option Feed) (a : Action) : Option Feed :=
  if a.kind = "post" then
    if Feed.yields f a then some ⟨(f.map Feed.posts).getD [] ++ [a], a.clock, a.stamp⟩ else f
  else if a.kind = "init" then
    if Feed.yields f a then some ⟨[], a.clock, a.stamp⟩ else f
  else f

/-- The cell a post contributes to a column. -/
def cell (c : String × String) (p : Action) : Value := evalTemplate p (.string c.2)

/-- The field of column `c` that shows the feed. -/
structure ShowsField (c : String × String) (field : Field) (f : Feed) : Prop where
  value : field.value = .array (f.posts.map (cell c))
  version : field.version = f.version
  stamp : field.stamp = f.stamp
  live : field.deleted = false

/-- The columns of the document show the feed. -/
def Shows (cols : List (String × String)) (d : Doc) : Option Feed → Prop
  | none => ∀ c ∈ cols, d.fields[c.1]? = none
  | some f => ∀ c ∈ cols, ∃ field, d.fields[c.1]? = some field ∧ ShowsField c field f

/-- Reading a column off the feed. -/
theorem Shows.currentArray {cols : List (String × String)} {d : Doc} {f : Option Feed}
    (h : Shows cols d f) {c : String × String} (hc : c ∈ cols) :
    currentArray d c.1 = ((f.map Feed.posts).getD []).map (cell c) := by
  unfold PhReactor.currentArray currentValue
  cases f with
  | none => rw [h c hc]; rfl
  | some f =>
    obtain ⟨field, hf, hs⟩ := h c hc
    rw [hf]
    dsimp only
    rw [hs.live, hs.value]
    rfl

theorem Shows.currentValue {cols : List (String × String)} {d : Doc} {f : Feed}
    (h : Shows cols d (some f)) {c : String × String} (hc : c ∈ cols) :
    currentValue d c.1 = .array (f.posts.map (cell c)) := by
  obtain ⟨field, hf, hs⟩ := h c hc
  unfold PhReactor.currentValue
  rw [hf]
  dsimp only
  rw [hs.live, hs.value]
  rfl

/-- One column under a write of `a`: the write prevails exactly when `Feed.yields` says so. -/
theorem showsField_merge (c : String × String) (a : Action) (posts : List Action)
    (cur : Option Field) (f : Option Feed) (hnone : f = none → cur = none)
    (hsome : ∀ g, f = some g → ∃ fld, cur = some fld ∧ ShowsField c fld g) :
    if Feed.yields f a then
      ∃ fld, mergeField cur (L1.writeOp a c.1 (.array (posts.map (cell c)))) = some fld ∧
        ShowsField c fld ⟨posts, a.clock, a.stamp⟩
    else mergeField cur (L1.writeOp a c.1 (.array (posts.map (cell c)))) = cur := by
  generalize hv : Value.array (posts.map (cell c)) = v
  have hnew : ShowsField c (fieldFromOp (L1.writeOp a c.1 v)) ⟨posts, a.clock, a.stamp⟩ := by
    have hval : (L1.writeOp a c.1 v).value = some v := rfl
    exact ⟨(fieldFromOp_some hval).1.trans hv.symm, fieldFromOp_version _, fieldFromOp_stamp _,
      (fieldFromOp_some hval).2⟩
  cases f with
  | none =>
    rw [hnone rfl]
    exact ⟨_, rfl, hnew⟩
  | some g =>
    obtain ⟨fld, rfl, hs⟩ := hsome g rfl
    have hmerge : mergeField (some fld) (L1.writeOp a c.1 v) =
        if g.version.covers a.clock then some fld
        else if a.clock.covers g.version ∨ g.stamp < a.stamp then
          some (fieldFromOp (L1.writeOp a c.1 v))
        else some fld := by
      unfold mergeField
      dsimp only
      rw [hs.version, hs.stamp]
      rfl
    rw [hmerge]
    unfold Feed.yields
    by_cases h1 : g.version.covers a.clock = true
    · simp [h1]
    · by_cases h2 : a.clock.covers g.version = true ∨ g.stamp < a.stamp
      · rw [if_neg h1, if_pos h2, if_pos (by simpa [h1] using h2)]
        exact ⟨_, rfl, hnew⟩
      · rw [if_neg h1, if_neg h2, if_neg (by simpa [h1] using h2)]

/-- Columns that are not written show the same feed. -/
theorem Shows.keep {cols : List (String × String)} {d d' : Doc} {f : Option Feed}
    (h : Shows cols d f) (hkeep : ∀ c ∈ cols, d'.fields[c.1]? = d.fields[c.1]?) :
    Shows cols d' f := by
  cases f with
  | none => exact fun c hc => (hkeep c hc).trans (h c hc)
  | some g =>
    intro c hc
    rw [hkeep c hc]
    exact h c hc

/-- All columns are written by `a`, and win or lose together. -/
theorem Shows.write {cols : List (String × String)} {d d' : Doc} {f : Option Feed}
    (h : Shows cols d f) (a : Action) (posts : List Action)
    (hwrite : ∀ c ∈ cols, d'.fields[c.1]? =
      mergeField d.fields[c.1]? (L1.writeOp a c.1 (.array (posts.map (cell c))))) :
    Shows cols d' (if Feed.yields f a then some ⟨posts, a.clock, a.stamp⟩ else f) := by
  have hmerge := fun (c : String × String) (hc : c ∈ cols) => showsField_merge c a posts
    d.fields[c.1]? f (by rintro rfl; exact h c hc) (by rintro g rfl; exact h c hc)
  by_cases hy : Feed.yields f a = true
  · rw [if_pos hy]
    intro c hc
    have hm := hmerge c hc
    rw [if_pos hy] at hm
    rw [hwrite c hc]
    exact hm
  · rw [if_neg hy]
    refine h.keep fun c hc => ?_
    have hm := hmerge c hc
    rw [if_neg hy] at hm
    rw [hwrite c hc, hm]

/-- **The columns follow the feed**: what an applied action does to a live document. -/
theorem shows_step {m : L1} {cols : List (String × String)} (hm : Columns m cols) {e : Entry}
    (hd : e.deleted = false) {f : Option Feed} (h : Shows cols e.doc f) (a : Action) :
    Shows cols (applyOpsToEntry e (.l1 m) a).1.doc (feedStep f a) := by
  unfold feedStep
  by_cases hpost : a.kind = "post"
  · rw [if_pos hpost]
    refine h.write a _ fun c hc => ?_
    have hlookup : (m.writes a.kind).lookup c.1 = some (Def.append c.2) := by
      rw [hpost]; exact hm.post c hc
    rw [fields_l1 (hm.sound _ (L1.reducer_isSome_of_lookup hlookup)) hd (hm.notName c hc), hlookup]
    dsimp only
    rw [written_append, h.currentArray hc, List.map_append]
    rfl
  · rw [if_neg hpost]
    by_cases hinit : a.kind = "init"
    · rw [if_pos hinit]
      refine h.write a _ fun c hc => ?_
      have hlookup : (m.writes a.kind).lookup c.1 = some (Def.set (.array [])) := by
        rw [hinit]; exact hm.init c hc
      rw [fields_l1 (hm.sound _ (L1.reducer_isSome_of_lookup hlookup)) hd (hm.notName c hc),
        hlookup]
      rfl
    · rw [if_neg hinit]
      refine h.keep fun c hc => ?_
      cases hr : m.reducer a.kind with
      | none => rw [applyOpsToEntry_of_unknown hr]
      | some r =>
        rw [fields_l1 (hm.sound _ (by rw [hr]; rfl)) hd (hm.notName c hc),
          hm.other a.kind hpost hinit c hc]

/-! ## Feeds along a fold -/

/-- Posts that each prevail over the one before are appended one after the other. -/
theorem foldl_feedStep_posts : ∀ (l ps : List Action) (z : Action),
    (∀ a ∈ l, a.kind = "post") →
    (z :: l).Pairwise (fun x y => x.stamp < y.stamp ∧ ¬ x.clock.covers y.clock = true) →
    ∃ v st, l.foldl feedStep (some ⟨ps, z.clock, z.stamp⟩) = some ⟨ps ++ l, v, st⟩
  | [], ps, z, _, _ => ⟨z.clock, z.stamp, by rw [List.append_nil]; rfl⟩
  | a :: l, ps, z, hkind, hchain => by
    obtain ⟨hz, hrest⟩ := List.pairwise_cons.mp hchain
    obtain ⟨hlt, hcov⟩ := hz a List.mem_cons_self
    have hstep : feedStep (some ⟨ps, z.clock, z.stamp⟩) a =
        some ⟨ps ++ [a], a.clock, a.stamp⟩ := by
      unfold feedStep Feed.yields
      rw [if_pos (hkind a List.mem_cons_self), if_pos]
      · rfl
      · simp [hcov, hlt]
    obtain ⟨v, st, h⟩ := foldl_feedStep_posts l (ps ++ [a]) a
      (fun b hb => hkind b (List.mem_cons_of_mem a hb)) hrest
    refine ⟨v, st, ?_⟩
    rw [List.foldl_cons, hstep, h, List.append_assoc]
    rfl

/-- What a fold in canonical order keeps about the feed: no post twice. -/
structure FeedInv (f : Feed) : Prop where
  nodup : f.posts.Nodup
  le : ∀ p ∈ f.posts, p.stamp ≤ f.stamp
  covers : ∀ p ∈ f.posts, p.stamp = f.stamp → f.version.covers p.clock = true

/-- **No action enters a feed twice**, when the actions come in the order of their stamps. -/
theorem feedInv_step {f : Option Feed} {a : Action} (h : ∀ g, f = some g → FeedInv g)
    (hle : ∀ g, f = some g → g.stamp ≤ a.stamp) :
    ∀ g, feedStep f a = some g → FeedInv g ∧ g.stamp ≤ a.stamp := by
  -- an action that prevails is new, and it covers the earlier posts of its stamp
  have hnew : ∀ g, f = some g → Feed.yields f a = true → a ∉ g.posts ∧
      ∀ p ∈ g.posts, p.stamp = a.stamp → a.clock.covers p.clock = true := by
    rintro g rfl hy
    simp only [Feed.yields, Bool.and_eq_true, Bool.not_eq_true', Bool.or_eq_true,
      decide_eq_true_eq] at hy
    obtain ⟨hcov, hwin⟩ := hy
    have hg := h g rfl
    have hstamp : ∀ p ∈ g.posts, p.stamp = a.stamp → g.stamp = a.stamp := fun p hp hpa =>
      le_antisymm (hle g rfl) (hpa ▸ hg.le p hp)
    constructor
    · intro ha
      have := hg.covers a ha (hstamp a ha rfl).symm
      rw [hcov] at this
      cases this
    · intro p hp hpa
      have hga := hstamp p hp hpa
      rcases hwin with hwin | hwin
      · exact VecClock.covers_trans hwin (hg.covers p hp (hpa.trans hga.symm))
      · exact absurd hga hwin.ne
  have hkeep : ∀ g, f = some g → FeedInv g ∧ g.stamp ≤ a.stamp := fun g hg => ⟨h g hg, hle g hg⟩
  intro g hg
  unfold feedStep at hg
  by_cases hpost : a.kind = "post"
  · rw [if_pos hpost] at hg
    by_cases hy : Feed.yields f a = true
    · rw [if_pos hy] at hg
      obtain rfl := Option.some.inj hg
      refine ⟨?_, le_rfl⟩
      cases f with
      | none =>
        refine ⟨List.nodup_singleton a, ?_, ?_⟩
        · intro p hp; rw [List.mem_singleton.mp hp]
        · intro p hp _; rw [List.mem_singleton.mp hp]; exact VecClock.covers_refl _
      | some g =>
        obtain ⟨hnot, hcov⟩ := hnew g rfl hy
        refine ⟨?_, ?_, ?_⟩
        · have hconcat := List.Nodup.concat hnot (h g rfl).nodup
          rwa [List.concat_eq_append] at hconcat
        · intro p hp
          rcases List.mem_append.mp hp with hp | hp
          · exact ((h g rfl).le p hp).trans (hle g rfl)
          · rw [List.mem_singleton.mp hp]
        · intro p hp hpa
          rcases List.mem_append.mp hp with hp | hp
          · exact hcov p hp hpa
          · rw [List.mem_singleton.mp hp]; exact VecClock.covers_refl _
    · rw [if_neg hy] at hg
      exact hkeep g hg
  · rw [if_neg hpost] at hg
    by_cases hinit : a.kind = "init"
    · rw [if_pos hinit] at hg
      by_cases hy : Feed.yields f a = true
      · rw [if_pos hy] at hg
        obtain rfl := Option.some.inj hg
        exact ⟨⟨List.nodup_nil, fun p hp => absurd hp List.not_mem_nil,
          fun p hp => absurd hp List.not_mem_nil⟩, le_rfl⟩
      · rw [if_neg hy] at hg
        exact hkeep g hg
    · rw [if_neg hinit] at hg
      exact hkeep g hg

variable [Primitives]

theorem Action.stamp_le_of_canonKey_le {a b : Action} (h : canonKey a ≤ canonKey b) :
    a.stamp ≤ b.stamp := by
  rcases Prod.Lex.toLex_le_toLex.mp h with hts | ⟨hts, horigin⟩
  · exact Prod.Lex.toLex_le_toLex.mpr (Or.inl hts)
  · refine Prod.Lex.toLex_le_toLex.mpr (Or.inr ⟨hts, ?_⟩)
    rcases Prod.Lex.toLex_le_toLex.mp horigin with ho | ⟨ho, -⟩
    · exact le_of_lt ho
    · exact le_of_eq ho

theorem Action.stamp_eq_of_canonKey_eq {a b : Action} (h : canonKey a = canonKey b) :
    a.stamp = b.stamp :=
  le_antisymm (Action.stamp_le_of_canonKey_le h.le) (Action.stamp_le_of_canonKey_le h.ge)

end PhReactor
