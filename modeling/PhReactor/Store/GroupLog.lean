/-
  `group@1`: every message is an authorised post.

  The message columns of a group are filled by the fold of its log.  `group_fold` is the invariant
  of that fold, by induction over the prefixes of the sorted log: the columns show a feed, no post
  is in it twice, and every post of it stands in the log at a place where the state BEFORE it let
  its origin post (`MayPost`): a member, and on the list of every private channel of that name.

  Nothing is assumed about the clocks or the hashes of the actions.
-/
import Mathlib.Data.List.Induction
import PhReactor.Store.Messages

set_option linter.unusedSectionVars false

namespace PhReactor

section

variable [Primitives]

/-! ## The group model -/

/-- The message columns of a group. -/
def groupCols : List (String × String) :=
  [("msg_channel", "$payload.channel"), ("msg_from", "$actor"), ("msg_text", "$payload.text"),
   ("msg_ts", "$ts")]

theorem groupReducers_sound : ∀ p ∈ groupReducers, ∀ w ∈ writesOf p.2, writeOk w.2 = true := by
  decide

theorem group_columns : Columns group groupCols := by
  refine columns_of_reducers (show group.reducers = .object groupReducers from rfl) (by decide)
    groupReducers_sound ?_ ?_ (by decide)
  · intro c hc
    simp only [groupCols, List.mem_cons, List.not_mem_nil, or_false] at hc
    rcases hc with rfl | rfl | rfl | rfl <;> rfl
  · intro c hc
    simp only [groupCols, List.mem_cons, List.not_mem_nil, or_false] at hc
    rcases hc with rfl | rfl | rfl | rfl <;> rfl

/-! ## Who may post -/

/-- The channel a post names. -/
def channelOf (p : Action) : Value := (p.payload.get? "channel").getD .null

/-- The origin of `p` is a member, and on the list of every private channel of the name `p` posts
    to. -/
structure MayPost (d : Doc) (p : Action) : Prop where
  member : inList d "members" p.origin = true
  allowed : ∀ ch ∈ currentArray d "channels", ch.get? "name" = some (channelOf p) →
    ch.get? "visibility" = some (.string "private") →
    (((ch.get? "members").bind Value.asArray?).getD []).any
      (fun v => v.asStr? == some p.origin) = true

/-- The checks a fold makes on a post are what `MayPost` says. -/
theorem mayPost_of_checks {d : Doc} {p : Action} (hk : p.kind = "post")
    (hpre : (Model.l1 group).checkPrecondition d p = .ok ())
    (hauth : (Model.l1 group).authorize d p = .ok ()) : MayPost d p := by
  constructor
  · -- the precondition of `post`: the actor is a member
    have hpre : group.checkPrecondition d p = .ok () := hpre
    unfold L1.checkPrecondition at hpre
    rw [hk] at hpre
    have hcheck := forM_eq_ok hpre (Def.actorIn "members") (by
      show _ ∈ [Def.actorIn "members"]
      exact List.mem_singleton_self _)
    have hcheck : (if inList d "members" p.origin = true then Except.ok ()
        else .error (.precondition ("actor " ++ p.origin ++ " is not in '" ++ "members" ++ "'"))) =
        (.ok () : Except Reject Unit) := hcheck
    by_contra hne
    rw [if_neg hne] at hcheck
    cases hcheck
  · -- the `auth` rule runs over all channels, and does not stop at the first of the name
    intro ch hch hname hvis
    have hauth : group.authorize d p = .ok () := hauth
    unfold L1.authorize at hauth
    rw [hk] at hauth
    have hentry := forM_eq_ok hauth ch hch
    dsimp only at hentry
    -- the field names of the rule, as the definition gives them
    have hfields : ((groupPostAuth.get? "name").bind Value.asStr?).getD "name" = "name" ∧
        ((groupPostAuth.get? "visibility").bind Value.asStr?).getD "visibility" = "visibility" ∧
        ((groupPostAuth.get? "private").bind Value.asStr?).getD "private" = "private" ∧
        ((groupPostAuth.get? "allow").bind Value.asStr?).getD "members" = "members" ∧
        evalTemplate p ((groupPostAuth.get? "match").getD Value.null) = channelOf p :=
      ⟨rfl, rfl, rfl, rfl, rfl⟩
    obtain ⟨hn, hv, hpriv, hallow, hmatch⟩ := hfields
    have hself : ∀ v : Value, (v == v) = true := Value.beq_refl
    by_contra hne
    simp only [hn, hv, hpriv, hallow, hmatch, hname, hvis, hself, Bool.not_true,
      Bool.false_eq_true, if_false] at hentry
    rw [if_neg hne] at hentry
    cases hentry

/-! ## The fold of a group's log -/

theorem mem_posts_feedStep {f : Option Feed} {a p : Action}
    (h : p ∈ ((feedStep f a).map Feed.posts).getD []) :
    p ∈ (f.map Feed.posts).getD [] ∨ (p = a ∧ a.kind = "post") := by
  unfold feedStep at h
  by_cases hpost : a.kind = "post"
  · rw [if_pos hpost] at h
    split at h
    · rcases List.mem_append.mp h with h | h
      · exact Or.inl h
      · exact Or.inr ⟨List.mem_singleton.mp h, hpost⟩
    · exact Or.inl h
  · rw [if_neg hpost] at h
    repeat' split at h
    · exact absurd h List.not_mem_nil
    · exact Or.inl h
    · exact Or.inl h

/-- `p` stands in `l` at a place where the fold of what is before it lets `p`'s origin post. -/
def PostedIn (r : ModelRegistry) (d : DocId) (l : List Action) (p : Action) : Prop :=
  p.kind = "post" ∧ ∃ before after, l = before ++ p :: after ∧
    MayPost (before.foldl (foldStep r) (Entry.new d)).doc p

theorem PostedIn.concat {r : ModelRegistry} {d : DocId} {l : List Action} {p : Action}
    (h : PostedIn r d l p) (a : Action) : PostedIn r d (l ++ [a]) p := by
  obtain ⟨hk, before, after, rfl, hmay⟩ := h
  exact ⟨hk, before, after ++ [a], by simp, hmay⟩

/-- What the fold of a group's log, up to some point, leaves. -/
structure GroupFold (r : ModelRegistry) (d : DocId) (l : List Action) (f : Option Feed) : Prop where
  live : (l.foldl (foldStep r) (Entry.new d)).deleted = false
  shows : Shows groupCols (l.foldl (foldStep r) (Entry.new d)).doc f
  feed : ∀ g, f = some g → FeedInv g
  /-- The feed is not ahead of any action that may come next. -/
  bound : ∀ g, f = some g → ∀ b, (∀ a ∈ l, canonKey a ≤ canonKey b) → g.stamp ≤ b.stamp
  posted : ∀ p ∈ (f.map Feed.posts).getD [], PostedIn r d l p

/-- **The fold of a group's log**, by induction over its prefixes. -/
theorem group_fold (r : ModelRegistry) (d : DocId) (l : List Action)
    (hm : ∀ a ∈ l, r.find a.model = some (.l1 group)) (hsort : Lib.KeySorted canonKey l) :
    ∃ f, GroupFold r d l f := by
  induction l using List.reverseRecOn with
  | nil =>
    refine ⟨none, rfl, ?_, ?_, ?_, ?_⟩
    · intro c _; simp [Entry.new]
    · intro g hg; cases hg
    · intro g hg; cases hg
    · intro p hp; exact absurd hp List.not_mem_nil
  | append_singleton l a ih =>
    obtain ⟨hsortl, -, hlast⟩ := List.pairwise_append.mp hsort
    obtain ⟨f, hf⟩ := ih (fun b hb => hm b (List.mem_append_left _ hb)) hsortl
    have hstep : (l ++ [a]).foldl (foldStep r) (Entry.new d) =
        refoldStep (l.foldl (foldStep r) (Entry.new d)) a (.l1 group) := by
      rw [List.foldl_append]
      exact foldStep_eq (hm a (by simp)) _
    have hla : ∀ b ∈ l, canonKey b ≤ canonKey a := fun b hb => hlast b hb a (by simp)
    rcases refoldStep_cases (l.foldl (foldStep r) (Entry.new d)) a (.l1 group) with
      hskip | ⟨hpre, hauth, happly⟩
    · -- passed over
      rw [hskip] at hstep
      refine ⟨f, ?_, ?_, hf.feed, ?_, fun p hp => (hf.posted p hp).concat a⟩
      · rw [hstep]; exact hf.live
      · rw [hstep]; exact hf.shows
      · exact fun g hg b hb => hf.bound g hg b fun c hc => hb c (List.mem_append_left _ hc)
    · -- applied: the columns follow the feed
      rw [happly] at hstep
      have hinv := feedInv_step hf.feed fun g hg => hf.bound g hg a hla
      refine ⟨feedStep f a, ?_, ?_, fun g hg => (hinv g hg).1, ?_, ?_⟩
      · rw [hstep]; exact (deleted_l1 _ group a).trans hf.live
      · rw [hstep]; exact shows_step group_columns hf.live hf.shows a
      · intro g hg b hb
        exact (hinv g hg).2.trans (Action.stamp_le_of_canonKey_le (hb a (by simp)))
      · intro p hp
        rcases mem_posts_feedStep hp with hp | ⟨rfl, hk⟩
        · exact (hf.posted p hp).concat a
        · exact ⟨hk, l, [], rfl, mayPost_of_checks hk hpre hauth⟩

end

section

open Sample

attribute [local instance] Sample.primitives

/-- The group of `live_fold_canonical_two_orders`, as bob's node has it. -/
def groupStore : Inner := (Store.fresh bob.key bob.name []).execAll bobEvents

end

end PhReactor
