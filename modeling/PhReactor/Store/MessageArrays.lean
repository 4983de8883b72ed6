/-
  The message arrays of a document stay ALIGNED, throughout its life.

  `shows_step` (`Store/Messages.lean`) says that the columns of a chat or a group follow one feed:
  each is the feed's posts, seen through the column's template, at the feed's version and stamp.
  Nothing in it depends on the order in which the actions come.  So "the columns show SOME feed" is
  a fact that holds throughout (`Store/Throughout.lean`): over every order of arrival with repeats,
  every re-fold from a snapshot, every replay from the files, whatever of them was lost.
-/
import PhReactor.Store.ChatLog
import PhReactor.Store.GroupLog
import PhReactor.Store.Throughout

set_option linter.unusedSectionVars false

namespace PhReactor

/-- The fields are all absent, or all arrays of one length, written by one action. -/
def Aligned (fields : List String) (d : Doc) : Prop :=
  (∀ f ∈ fields, d.fields[f]? = none) ∨
    ∃ (n : ℕ) (version : VecClock) (ts : U64) (origin : Origin),
      ∀ f ∈ fields, ∃ fld l, d.fields[f]? = some fld ∧ fld.deleted = false ∧
        fld.value = .array l ∧ l.length = n ∧
        fld.version = version ∧ fld.ts = ts ∧ fld.origin = origin

/-- Columns that show a feed are aligned. -/
theorem aligned_of_shows {cols : List (String × String)} {d : Doc} {f : Option Feed}
    (h : Shows cols d f) {fields : List String} (hsub : ∀ k ∈ fields, k ∈ cols.map Prod.fst) :
    Aligned fields d := by
  cases f with
  | none =>
    refine Or.inl fun k hk => ?_
    obtain ⟨c, hc, rfl⟩ := List.mem_map.mp (hsub k hk)
    exact h c hc
  | some f =>
    refine Or.inr ⟨f.posts.length, f.version, (ofLex f.stamp).1, (ofLex f.stamp).2, fun k hk => ?_⟩
    obtain ⟨c, hc, rfl⟩ := List.mem_map.mp (hsub k hk)
    obtain ⟨fld, hfld, hs⟩ := h c hc
    refine ⟨fld, f.posts.map (cell c), hfld, hs.live, hs.value, List.length_map .., hs.version, ?_⟩
    rw [← hs.stamp]
    exact ⟨rfl, rfl⟩

section

variable [Primitives]

/-- **Columns stay aligned** in every state of every lifetime of a document of one model. -/
theorem columns_aligned {m : L1} {cols : List (String × String)} (hm : Columns m cols) {d : DocId}
    {key : SigningKey} {origin : Origin} {extra : List Model} {s : Inner} {acc : List Action}
    (hlife : Lifetime (OneModel m d) (Store.fresh key origin extra) s acc) {e : Entry}
    (he : s.entries[d]? = some e) {fields : List String}
    (hsub : ∀ k ∈ fields, k ∈ cols.map Prod.fst) : Aligned fields e.doc := by
  have hshows := (holds_of_oneModel (m := m) (d := d) (K := fun _ => True)
    (I := fun doc => ∃ f, Shows cols doc f) ?_ ?_ ?_ (fun s acc h hP => hP) (fun _ _ _ _ _ _ _ =>
      trivial) hlife he).1
  · obtain ⟨f, hf⟩ := hshows
    exact aligned_of_shows hf hsub
  · -- a new document has no fields
    exact fun d => ⟨none, fun c _ => rfl⟩
  · -- the name is none of the columns
    rintro doc d ⟨f, hf⟩
    exact ⟨f, hf.keep fun c hc => fields_liftName _ (hm.notName c hc)⟩
  · rintro a e - hdel ⟨f, hf⟩
    exact ⟨feedStep f a, shows_step hm hdel hf a⟩

/-- **The message arrays stay aligned**, in groups and in chats. -/
theorem message_arrays_aligned (d : DocId) (key : SigningKey) (origin : Origin)
    (extra : List Model) (s : Inner) (acc : List Action) :
    (Lifetime (OneModel group d) (Store.fresh key origin extra) s acc →
      ∀ e, s.entries[d]? = some e →
        Aligned ["msg_from", "msg_text", "msg_ts", "msg_channel"] e.doc) ∧
    (Lifetime (OneModel chat d) (Store.fresh key origin extra) s acc →
      ∀ e, s.entries[d]? = some e → Aligned ["msg_from", "msg_text", "msg_ts"] e.doc) :=
  ⟨fun hlife _ he => columns_aligned group_columns hlife he (by decide),
    fun hlife _ he => columns_aligned chat_columns hlife he (by decide)⟩

end

section

open Sample

attribute [local instance] Sample.primitives

/-- Alice's node with the sample group. -/
def oneGroup : Inner := (Store.fresh alice.key alice.name []).exec (.applyAction Io.ok groupInit)

/-- Alice posts, the node is restarted: the arrays of its one message are aligned. -/
theorem message_arrays_aligned_post :
    ∃ e, ((oneGroup.happen (.event (.applyAction Io.ok
        (post alice "hi" 20 [("alice", 2)])))).happen (.reopen [])).entries[docId]? = some e ∧
      currentArray e.doc "msg_text" = [.string "hi"] ∧
      Aligned ["msg_from", "msg_text", "msg_ts", "msg_channel"] e.doc := by
  have hfacts : ((oneGroup.entryFor docId).log.map Action.model = [ModelRef.new "group" "1"] ∧
      (oneGroup.disk.alog[docId]?.getD []).map Action.model = [ModelRef.new "group" "1"]) ∧
      (((oneGroup.exec (.applyAction Io.ok (post alice "hi" 20 [("alice", 2)]))).entryFor
        docId).log.map Action.model =
          [ModelRef.new "group" "1", ModelRef.new "group" "1"] ∧
      ((oneGroup.exec (.applyAction Io.ok
        (post alice "hi" 20 [("alice", 2)]))).disk.alog[docId]?.getD []).map Action.model =
          [ModelRef.new "group" "1", ModelRef.new "group" "1"]) ∧
      ((oneGroup.happen (.event (.applyAction Io.ok
        (post alice "hi" 20 [("alice", 2)])))).happen (.reopen [])).entries[docId]?.map
          (fun e => currentArray e.doc "msg_text") = some [.string "hi"] := by
    decide +kernel
  obtain ⟨⟨hlog₁, halog₁⟩, ⟨hlog₂, halog₂⟩, htext⟩ := hfacts
  -- the registry is the built-in one throughout, and every logged action names the group model
  have hmodels₁ : oneGroup.models = ModelRegistry.seededWithBuiltins :=
    (Inner.sameSetup_applyAction _ Io.ok groupInit).models.trans (Store.fresh_models _ _ _)
  have hgroup : ModelRegistry.seededWithBuiltins.find (ModelRef.new "group" "1") =
      some (.l1 group) := seededWithBuiltins_find ("group", group) (by simp)
  have hlogged : ∀ {t : Inner}, (∀ x ∈ (t.entryFor docId).log.map Action.model,
      x = ModelRef.new "group" "1") → (∀ x ∈ (t.disk.alog[docId]?.getD []).map Action.model,
      x = ModelRef.new "group" "1") → ∀ b, b ∈ (t.entryFor docId).log ∨
        b ∈ t.disk.alog[docId]?.getD [] → Under group ModelRegistry.seededWithBuiltins b := by
    rintro t hlog halog b (hb | hb) <;> unfold Under
    · rw [hlog _ (List.mem_map_of_mem hb), hgroup]
    · rw [halog _ (List.mem_map_of_mem hb), hgroup]
  obtain ⟨acc, hinit⟩ : ∃ acc, Lifetime (OneModel group docId)
      (Store.fresh alice.key alice.name []) oneGroup acc := by
    refine ⟨_, Lifetime.start.step (.event (.applyAction Io.ok groupInit)) trivial
      (OneModel.apply ?_ fun b hb => absurd hb (not_logged_fresh _ _ _ _ b))⟩
    unfold Under
    rw [Store.fresh_models]
    exact hgroup
  have hpost := hinit.step (.event (.applyAction Io.ok (post alice "hi" 20 [("alice", 2)])))
    trivial (OneModel.apply (by rw [hmodels₁]; exact hgroup)
      (by rw [hmodels₁]; exact hlogged (by rw [hlog₁]; simp) (by rw [halog₁]; simp)))
  have hlife := hpost.step (.reopen []) trivial (OneModel.reopen
    (hlogged (t := oneGroup.exec (.applyAction Io.ok (post alice "hi" 20 [("alice", 2)])))
      (by rw [hlog₂]; simp) (by rw [halog₂]; simp)))
  obtain ⟨e, he, htext⟩ := Option.map_eq_some_iff.mp htext
  exact ⟨e, he, htext, (message_arrays_aligned docId alice.key alice.name [] _ _).1 hlife e he⟩

end

end PhReactor
