/-
  `chat@1`: no post is lost or repeated.

  A chat whose log is one `init` at the canonical front and any posts after it shows exactly its
  posts, each once, in canonical order.  The argument:

  1. the actions of the log have distinct stamps, so the log may be folded without its repeats
     (`canonFold_eq_of_mem_iff`) and the fold runs over a STRICTLY increasing list;

  2. `chat@1` checks space membership and nothing else, so the fold passes over no action
     (`chat_refoldStep`);

  3. an action that is canonically later is never covered by the clock before it, so every post
     prevails over the columns it meets (`foldl_feedStep_posts`).
-/
import PhReactor.Store.Messages

set_option linter.unusedSectionVars false

namespace PhReactor

section

variable [Primitives]

/-! ## The chat model -/

/-- The message columns of a chat. -/
def chatCols : List (String × String) :=
  [("msg_from", "$actor"), ("msg_text", "$payload.text"), ("msg_ts", "$ts")]

theorem chat_columns : Columns chat chatCols := by
  refine columns_of_reducers (show chat.reducers = .object chatReducers from rfl) (by decide)
    (by decide) ?_ ?_ (by decide)
  · intro c hc
    simp only [chatCols, List.mem_cons, List.not_mem_nil, or_false] at hc
    rcases hc with rfl | rfl | rfl <;> rfl
  · intro c hc
    simp only [chatCols, List.mem_cons, List.not_mem_nil, or_false] at hc
    rcases hc with rfl | rfl | rfl <;> rfl

/-- Whatever the document, a chat's `init` and `post` pass the checks of a fold: their only
    precondition is space membership, which the store checks on arrival. -/
theorem chat_refoldStep (e : Entry) {a : Action} (h : a.kind = "init" ∨ a.kind = "post") :
    refoldStep e a (.l1 chat) = { (applyOpsToEntry e (.l1 chat) a).1 with model := a.model } := by
  have hpre : (Model.l1 chat).checkPrecondition e.doc a = .ok () := by
    show chat.checkPrecondition e.doc a = .ok ()
    unfold L1.checkPrecondition
    rcases h with h | h <;> rw [h] <;> rfl
  have hauth : (Model.l1 chat).authorize e.doc a = .ok () := rfl
  unfold refoldStep
  rw [hpre, hauth]
  rfl

/-! ## The fold of a chat's log -/

/-- Along a chat's log the columns follow the feed; nothing is passed over. -/
theorem chat_foldl_shows {r : ModelRegistry} : ∀ (l : List Action) (e : Entry) (f : Option Feed),
    (∀ a ∈ l, r.find a.model = some (.l1 chat)) → (∀ a ∈ l, a.kind = "init" ∨ a.kind = "post") →
    e.deleted = false → Shows chatCols e.doc f →
    Shows chatCols (l.foldl (foldStep r) e).doc (l.foldl feedStep f)
  | [], _, _, _, _, _, h => h
  | a :: l, e, f, hm, hk, hd, h => by
    have hstep : foldStep r e a = { (applyOpsToEntry e (.l1 chat) a).1 with model := a.model } := by
      rw [foldStep_eq (hm a List.mem_cons_self), chat_refoldStep e (hk a List.mem_cons_self)]
    rw [List.foldl_cons, List.foldl_cons, hstep]
    refine chat_foldl_shows l _ _ (fun b hb => hm b (List.mem_cons_of_mem a hb))
      (fun b hb => hk b (List.mem_cons_of_mem a hb)) ?_ ?_
    · exact (deleted_l1 e chat a).trans hd
    · exact shows_step chat_columns hd h a

/-- The log of a chat, as the property wants it. -/
structure ChatLog (log : List Action) (i : Action) : Prop where
  mem : i ∈ log
  kind : i.kind = "init"
  /-- Every other action is a post. -/
  posts : ∀ a ∈ log, a ≠ i → a.kind = "post"
  first : ∀ a ∈ log, canonKey i ≤ canonKey a
  distinct : ∀ a ∈ log, ∀ b ∈ log, a ≠ b → a.stamp ≠ b.stamp
  /-- A clock that covers another one belongs to the later action. -/
  causal : ∀ a ∈ log, ∀ b ∈ log, a ≠ b → a.clock.covers b.clock = true → b.stamp < a.stamp

theorem ChatLog.keySeparates {log : List Action} {i : Action} (h : ChatLog log i) :
    KeySeparates {a | a ∈ log} := by
  intro a ha b hb hkey
  by_cases hab : a = b
  · rw [hab]; rfl
  · exact absurd (Action.stamp_eq_of_canonKey_eq hkey) (h.distinct a ha b hb hab)

/-- Without its repeats and sorted, the log is the `init` and then the posts, strictly increasing,
    no clock covering a later one. -/
theorem ChatLog.sorted_dedup {log : List Action} {i : Action} (h : ChatLog log i) :
    ∃ posts, sortLog log.dedup = i :: posts ∧ posts.Nodup ∧
      (∀ a, a ∈ posts ↔ a ∈ log ∧ a.kind = "post") ∧
      posts.Pairwise (fun x y => canonKey x < canonKey y) ∧
      (i :: posts).Pairwise (fun x y => x.stamp < y.stamp ∧ ¬ x.clock.covers y.clock = true) := by
  have hmem : ∀ a, a ∈ sortLog log.dedup ↔ a ∈ log := fun a => mem_sortLog.trans List.mem_dedup
  have hnodup : (sortLog log.dedup).Nodup :=
    (Lib.canonSort_perm canonKey log.dedup).nodup_iff.mpr log.nodup_dedup
  have hsorted := sortLog_keySorted log.dedup
  generalize sortLog log.dedup = l at hmem hnodup hsorted
  -- the head carries the least key, which is the key of `i`
  cases l with
  | nil => exact absurd ((hmem i).mpr h.mem) List.not_mem_nil
  | cons z posts =>
    obtain ⟨hz, hrest⟩ := List.pairwise_cons.mp hsorted
    have hzi : z = i := by
      by_contra hne
      have hzlog : z ∈ log := (hmem z).mp List.mem_cons_self
      have hle : canonKey z ≤ canonKey i := by
        rcases List.mem_cons.mp ((hmem i).mpr h.mem) with heq | hi
        · exact absurd heq.symm hne
        · exact hz i hi
      exact h.distinct z hzlog i h.mem hne
        (Action.stamp_eq_of_canonKey_eq (le_antisymm hle (h.first z hzlog)))
    subst hzi
    obtain ⟨hnot, hnodup'⟩ := List.nodup_cons.mp hnodup
    have hchain : ∀ x ∈ z :: posts, ∀ y ∈ z :: posts, x ≠ y → canonKey x ≤ canonKey y →
        x.stamp < y.stamp ∧ ¬ x.clock.covers y.clock = true := by
      intro x hx y hy hne hle
      have hx := (hmem x).mp hx
      have hy := (hmem y).mp hy
      have hlt : x.stamp < y.stamp :=
        lt_of_le_of_ne (Action.stamp_le_of_canonKey_le hle) (h.distinct x hx y hy hne)
      exact ⟨hlt, fun hcov => lt_asymm hlt (h.causal x hx y hy hne hcov)⟩
    have hpair : (z :: posts).Pairwise fun x y => canonKey x ≤ canonKey y ∧ x ≠ y :=
      List.pairwise_and_iff.mpr ⟨hsorted, hnodup⟩
    refine ⟨posts, rfl, hnodup', ?_, ?_, ?_⟩
    · intro a
      constructor
      · intro ha
        have halog := (hmem a).mp (List.mem_cons_of_mem z ha)
        exact ⟨halog, h.posts a halog fun heq => hnot (heq ▸ ha)⟩
      · rintro ⟨halog, hkind⟩
        rcases List.mem_cons.mp ((hmem a).mpr halog) with rfl | ha
        · rw [h.kind] at hkind
          exact absurd hkind (by decide)
        · exact ha
    · refine (List.pairwise_cons.mp hpair).2.imp_of_mem ?_
      intro x y hx hy hxy
      refine lt_of_le_of_ne hxy.1 fun hkey => ?_
      exact h.distinct x ((hmem x).mp (List.mem_cons_of_mem z hx)) y
        ((hmem y).mp (List.mem_cons_of_mem z hy)) hxy.2 (Action.stamp_eq_of_canonKey_eq hkey)
    · exact hpair.imp_of_mem fun hx hy hxy => hchain _ hx _ hy hxy.2 hxy.1

end

section

open Sample

attribute [local instance] Sample.primitives

def chatInit : Action :=
  act alice "chat" "init" (.object [("channel", .string "general"), ("name", .string "talk")]) 10
    [("alice", 1)] (some spaceId)

def chatPost (p : Peer) (text : String) (ts : U64) (clock : List (Origin × U64)) : Action :=
  act p "chat" "post" (.object [("text", .string text)]) ts clock (some spaceId)

/-- Two concurrent posts, in canonical order. -/
def chatPosts : List Action :=
  [chatPost alice "hi" 20 [("alice", 2)], chatPost bob "yo" 21 [("alice", 1), ("bob", 1)]]

/-- The later post arrives first, and once more at the end. -/
def chatStore : Inner :=
  (Store.fresh alice.key alice.name []).execAll
    (pins [bob] ++ deliver ([spaceInit, chatInit] ++ chatPosts.reverse ++ chatPosts.drop 1))

end

end PhReactor
