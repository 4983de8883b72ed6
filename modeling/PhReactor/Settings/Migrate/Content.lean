/-
  Does a migration keep the content of the group.

  The dry run says that messages are carried over.  `applyOne` names what it creates, and puts
  nothing into it: an `init` leaves the message columns and the items empty (`Hollow`).  So a
  migration that succeeds keeps the content exactly when there is none to keep
  (`migration_keeps_content_iff`), and `messages_lost` is one that loses it.
-/
import PhReactor.Settings.Migrate

set_option linter.unusedSectionVars false

namespace PhReactor

section

variable [Primitives]

/-! ## The content of a group -/

/-- The messages of a channel, each with its author: parallel arrays, where a message without a tag
    is in `general`. -/
def DocRow.messages (d : DocRow) (chan : String) : List (String × Option String) :=
  ((d.strs "msg_text").zipIdx.filter fun (_, i) =>
    ((d.strs "msg_channel")[i]?).getD "general" == chan).map
      fun (text, i) => (text, (d.strs "msg_from")[i]?)

/-- The strings in an array field of a document. -/
def stringsIn (doc : Doc) (k : String) : List String :=
  (currentArray doc k).filterMap Value.asStr?

/-- The messages of a chat. -/
def chatMessages (doc : Doc) : List (String × Option String) :=
  (stringsIn doc "msg_text").zipIdx.map fun (text, i) => (text, (stringsIn doc "msg_from")[i]?)

/-- The content of the group is in the documents of the plan. -/
structure Carried (d : DocRow) (p : Plan) (s : Inner) : Prop where
  messages : ∀ chan, d.messages chan ≠ [] → ∃ doc n e, (doc, chan, n) ∈ p.chats ∧
    Store.get s doc = some e ∧ (d.messages chan).Sublist (chatMessages e)
  counts : ∀ doc chan n, (doc, chan, n) ∈ p.chats →
    ∃ e, Store.get s doc = some e ∧ (chatMessages e).length = n
  items : ∀ item ∈ p.driveItems,
    ∃ e, Store.get s p.driveDoc = some e ∧ item ∈ currentArray e "items"

/-- The group has no messages and no items, and none are announced. -/
structure NothingToKeep (d : DocRow) (p : Plan) : Prop where
  messages : d.strs "msg_text" = []
  counts : ∀ doc chan n, (doc, chan, n) ∈ p.chats → n = 0
  items : p.driveItems = []

/-- A group that has messages has some in a channel. -/
theorem exists_channel {d : DocRow} (h : d.strs "msg_text" ≠ []) :
    ∃ chan, d.messages chan ≠ [] := by
  obtain ⟨text, rest, htexts⟩ := List.exists_cons_of_ne_nil h
  refine ⟨((d.strs "msg_channel")[0]?).getD "general", ?_⟩
  unfold DocRow.messages
  rw [htexts, List.zipIdx_cons, List.filter_cons, if_pos (beq_self_eq_true _)]
  exact List.cons_ne_nil _ _

theorem messages_of_texts_nil {d : DocRow} (h : d.strs "msg_text" = []) (chan : String) :
    d.messages chan = [] := by
  unfold DocRow.messages
  rw [h]
  rfl

/-! ## Empty documents -/

/-- The document of that name has no messages and no items. -/
def Hollow (s : Inner) (name : String) : Prop :=
  ∃ e, Store.get s name = some e ∧ chatMessages e = [] ∧ currentArray e "items" = []

/-- **Documents with nothing in them keep nothing.** -/
theorem carried_iff_of_hollow {d : DocRow} {p : Plan} {s : Inner}
    (hchats : ∀ doc chan n, (doc, chan, n) ∈ p.chats → Hollow s doc)
    (hdrive : Hollow s p.driveDoc) :
    Carried d p s ↔ NothingToKeep d p := by
  constructor
  · intro h
    refine ⟨?_, ?_, ?_⟩
    · by_contra htexts
      obtain ⟨chan, hchan⟩ := exists_channel htexts
      obtain ⟨doc, n, e, hmem, hget, hsub⟩ := h.messages chan hchan
      obtain ⟨e', hget', hnone, -⟩ := hchats doc chan n hmem
      obtain rfl : e = e' := Option.some.inj (hget.symm.trans hget')
      rw [hnone] at hsub
      exact hchan (List.sublist_nil.mp hsub)
    · intro doc chan n hmem
      obtain ⟨e, hget, hlen⟩ := h.counts doc chan n hmem
      obtain ⟨e', hget', hnone, -⟩ := hchats doc chan n hmem
      obtain rfl : e = e' := Option.some.inj (hget.symm.trans hget')
      rw [← hlen, hnone]
      rfl
    · refine List.eq_nil_iff_forall_not_mem.mpr fun item hitem => ?_
      obtain ⟨e, hget, hin⟩ := h.items item hitem
      obtain ⟨e', hget', -, hnone⟩ := hdrive
      obtain rfl : e = e' := Option.some.inj (hget.symm.trans hget')
      rw [hnone] at hin
      exact absurd hin List.not_mem_nil
  · intro h
    refine ⟨fun chan hchan => ?_, fun doc chan n hmem => ?_, fun item hitem => ?_⟩
    · exact absurd (messages_of_texts_nil h.messages chan) hchan
    · obtain ⟨e, hget, hnone, -⟩ := hchats doc chan n hmem
      refine ⟨e, hget, ?_⟩
      rw [hnone, h.counts doc chan n hmem]
      rfl
    · rw [h.items] at hitem
      exact absurd hitem List.not_mem_nil

/-- A field that is not there, or an empty array, has nothing in it. -/
theorem currentArray_live_nil {doc : Doc} {k : String}
    (h : ∀ f, doc.fields[k]? = some f → f.value = .array []) : currentArray doc.live k = [] := by
  have hfields : doc.live.fields[k]? = (doc.fields[k]?).filter fun f => !f.deleted := by
    unfold Doc.live
    simp
  unfold currentArray currentValue
  rw [hfields]
  cases hf : doc.fields[k]? with
  | none => rfl
  | some f =>
    rw [Option.filter_some]
    cases hdel : f.deleted with
    | true => rfl
    | false =>
      show ((if f.deleted then Value.null else f.value).asArray?.getD []) = []
      rw [hdel, h f hf]
      rfl

theorem hollow_iff {s : Inner} {name : String} : Hollow s name ↔ ∃ id e,
    s.names[name]? = some id ∧ s.entries[id]? = some e ∧ e.deleted = false ∧
      chatMessages e.doc.live = [] ∧ currentArray e.doc.live "items" = [] := by
  constructor
  · rintro ⟨doc, hget, hmessages, hitems⟩
    obtain ⟨id, e, hname, he, hlive, rfl⟩ := get_eq_some.mp hget
    exact ⟨id, e, hname, he, hlive, hmessages, hitems⟩
  · rintro ⟨id, e, hname, he, hlive, hmessages, hitems⟩
    exact ⟨_, get_of_entry hname he hlive, hmessages, hitems⟩

/-- The `init` of the model puts nothing into messages and items. -/
structure L1.PutsNothing (m : L1) : Prop where
  names : m.NamesItself
  empty : ∀ k, k = "msg_text" ∨ k = "items" → ∀ w, (m.writes "init").lookup k = some w →
    w = Def.set (.array [])

theorem chat_putsNothing : chat.PutsNothing := by
  refine ⟨chat_namesItself, ?_⟩
  rintro k (rfl | rfl) w hw
  · exact (Option.some.inj hw).symm
  · cases hw

theorem drive_putsNothing : drive.PutsNothing := by
  refine ⟨drive_namesItself, ?_⟩
  rintro k (rfl | rfl) w hw
  · cases hw
  · exact (Option.some.inj hw).symm

section

variable {s : Inner} {io : Io} {now : U64} {id : DocId} {name : String} {ref : ModelRef} {m : L1}
  {payload : Value} {sp : Option DocId}

theorem hollow_newborn (s : Inner) (now : U64) (id : DocId) (ref : ModelRef) (payload : Value)
    (sp : Option DocId) (hm : m.PutsNothing) :
    (s.newborn now id ref payload sp (.l1 m)).deleted = false ∧
      chatMessages (s.newborn now id ref payload sp (.l1 m)).doc.live = [] ∧
      currentArray (s.newborn now id ref payload sp (.l1 m)).doc.live "items" = [] := by
  have hnil : ∀ k, k = "msg_text" ∨ k = "items" →
      currentArray (s.newborn now id ref payload sp (.l1 m)).doc.live k = [] := by
    intro k hk
    have hne : k ≠ nameKey := by
      rcases hk with rfl | rfl <;> decide
    refine currentArray_live_nil fun f hf => ?_
    rw [fields_newborn s now id ref payload sp hm.names.sound hne] at hf
    obtain ⟨w, hw, rfl⟩ := Option.map_eq_some_iff.mp hf
    obtain rfl := hm.empty k hk w hw
    exact (fieldFromOp_some rfl).1
  refine ⟨deleted_newborn, ?_, hnil "items" (Or.inr rfl)⟩
  unfold chatMessages stringsIn
  rw [hnil "msg_text" (Or.inl rfl)]
  rfl

/-- **A creation leaves a hollow document**, and what was hollow stays so. -/
theorem hollow_created (io : Io) (now : U64) (id : DocId) (sp : Option DocId)
    (hm : s.models.find ref = some (.l1 m)) (hname : m.ref_.name = ref.name)
    (hversion : m.ref_.version = ref.version) (hputs : m.PutsNothing)
    (hpayload : payload.get? "name" = some (.string name))
    (hok : (Store.createDocInSpace s io now id name ref payload sp).2.isOk = true) :
    Hollow (Store.createDocInSpace s io now id name ref payload sp).1 name ∧
      ∀ other, Hollow s other →
        Hollow (Store.createDocInSpace s io now id name ref payload sp).1 other := by
  obtain ⟨hnames, hentry⟩ := createDocInSpace_ok hm hname hversion hputs.names hpayload hok
  have hborn := hollow_newborn s now id ref payload sp hputs
  refine ⟨hollow_iff.mpr ⟨id, _, ?_, hentry, hborn⟩, fun other hother => ?_⟩
  · rw [hnames]
    simp
  · obtain ⟨id', e, hname', he, hhollow⟩ := hollow_iff.mp hother
    -- the name that was created was free
    have hne : name ≠ other := by
      rintro rfl
      have hfree := getElem?_names_of_nameFree (isOk_createDocInSpace.mp hok).1
      rw [hname'] at hfree
      cases hfree
    have hkept : (Store.createDocInSpace s io now id name ref payload sp).1.names[other]? =
        some id' := by
      rw [hnames, Std.ExtTreeMap.getElem?_insert, if_neg, hname']
      exact fun h => hne (Std.compare_eq_iff_eq.mp h)
    by_cases hid : id' = id
    · subst hid
      exact hollow_iff.mpr ⟨id', _, hkept, hentry, hborn⟩
    · refine hollow_iff.mpr ⟨id', e, hkept, ?_, hhollow⟩
      rw [(createDocInSpace_frame s io now id name ref payload sp).2 id' hid]
      exact he

end

/-- The loop leaves a hollow chat for every channel. -/
theorem createChats_hollow {w : ℕ → Draw} {sp : DocId} {chats : List (String × String × ℕ)}
    {s : Inner} {i : ℕ} (hchat : s.models.find (ModelRef.new "chat" "1") = some (.l1 chat))
    (hok : (createChats s w sp chats i).2.isOk = true) :
    s.SameSetup (createChats s w sp chats i).1 ∧
      (∀ doc chan n, (doc, chan, n) ∈ chats → Hollow (createChats s w sp chats i).1 doc) ∧
      ∀ other, Hollow s other → Hollow (createChats s w sp chats i).1 other := by
  induction chats generalizing s i with
  | nil => exact ⟨⟨rfl, rfl, rfl, rfl⟩, fun _ _ _ h => absurd h List.not_mem_nil, fun _ h => h⟩
  | cons c rest ih =>
    obtain ⟨doc, chan, n⟩ := c
    rcases createChats_cons s w sp doc chan n rest i with ⟨-, -, hfail⟩ | ⟨hmade, heq⟩
    · rw [hfail] at hok
      cases hok
    · obtain ⟨hsetup, -⟩ := createDocInSpace_frame s (w i).io (w i).now (w i).id doc
        (ModelRef.new "chat" "1") (chatPayload doc chan) (some sp)
      obtain ⟨hdoc, hkeep⟩ := hollow_created (w i).io (w i).now (w i).id (some sp) hchat rfl rfl
        chat_putsNothing rfl hmade
      rw [heq] at hok ⊢
      obtain ⟨hsetup', hrest, hkept⟩ := ih (by rw [hsetup.models]; exact hchat) hok
      refine ⟨hsetup.trans hsetup', fun doc' chan' n' hmem => ?_,
        fun other hother => hkept other (hkeep other hother)⟩
      rcases List.mem_cons.mp hmem with hfirst | hmem
      · obtain ⟨rfl, -⟩ := Prod.mk.inj hfirst
        exact hkept _ hdoc
      · exact hrest doc' chan' n' hmem

/-- **A migration that succeeds leaves hollow documents**, if it has done anything. -/
theorem applyOne_hollow {s : Inner} {w : ℕ → Draw} {p : Plan}
    (hchat : s.models.find (ModelRef.new "chat" "1") = some (.l1 chat))
    (hdrive : s.models.find (ModelRef.new "drive" "1") = some (.l1 drive))
    (hstands : p.stands s = false) (hok : (applyOne s w p).2.isOk = true) :
    (∀ doc chan n, (doc, chan, n) ∈ p.chats → Hollow (applyOne s w p).1 doc) ∧
      Hollow (applyOne s w p).1 p.driveDoc := by
  rcases applyOne_cases w hstands with ⟨-, -, hfail⟩ | ⟨-, heq⟩
  · rw [hfail] at hok
    cases hok
  · have hdelete := sameSetup_deleteDoc s (w 0).io (w 0).now p.group
    rw [heq] at hok ⊢
    generalize (Store.deleteDoc s (w 0).io (w 0).now p.group).1 = s₁ at *
    rcases createAll_cases s₁ w p with ⟨-, -, hfail⟩ | ⟨-, hchats⟩
    · rw [hfail] at hok
      cases hok
    · have hspace : s₁.SameSetup (createSpace s₁ (w 1) p).1 := (createSpaceAt_frame ..).1
      have hmodels := (hdelete.trans hspace).models
      rcases hchats with ⟨-, -, hfail⟩ | ⟨hloop, hstate, hans⟩
      · rw [hfail] at hok
        cases hok
      · obtain ⟨hsetup, hhollow, -⟩ := createChats_hollow (by rw [hmodels]; exact hchat) hloop
        have hdrive₃ : (createChats (createSpace s₁ (w 1) p).1 w p.spaceId p.chats 2).1.models.find
            (ModelRef.new "drive" "1") = some (.l1 drive) := by
          rw [hsetup.models, hmodels]
          exact hdrive
        rw [hans] at hok
        unfold createDrive at hok
        obtain ⟨hnew, hkept⟩ := hollow_created _ _ _ _ hdrive₃ rfl rfl drive_putsNothing rfl hok
        rw [hstate]
        exact ⟨fun doc chan n hmem => hkept doc (hhollow doc chan n hmem), hnew⟩

/-- **When a migration keeps the content of the group**: if it finds the space there, when the
    content is there already; otherwise when there is none. -/
theorem migration_keeps_content_iff (d : DocRow) (groupId : String) (w : ℕ → Draw) {s t : Inner}
    (hchat : s.models.find (ModelRef.new "chat" "1") = some (.l1 chat))
    (hdrive : s.models.find (ModelRef.new "drive" "1") = some (.l1 drive))
    (hok : applyOne s w (planFor d groupId) = (t, .ok ())) :
    Carried d (planFor d groupId) t ↔
      if (planFor d groupId).stands s = true then Carried d (planFor d groupId) s
      else NothingToKeep d (planFor d groupId) := by
  by_cases hstands : (planFor d groupId).stands s = true
  · rw [if_pos hstands]
    unfold applyOne at hok
    rw [if_pos hstands] at hok
    obtain ⟨rfl, -⟩ := Prod.mk.inj hok
    exact Iff.rfl
  · rw [if_neg hstands]
    obtain ⟨hchats, hdriveDoc⟩ := applyOne_hollow (w := w) hchat hdrive
      (Bool.eq_false_iff.mpr hstands) (by rw [hok]; rfl)
    rw [hok] at hchats hdriveDoc
    exact carried_iff_of_hollow hchats hdriveDoc

end

section

open Sample

attribute [local instance] Sample.primitives

/-- A message is something to keep. -/
theorem migration_keeps_content_talking :
    ∃ t, applyOne talkingGroup countingDraws (groupPlan talkingGroup) = (t, .ok ()) ∧
      ¬ Carried (groupRow talkingGroup) (groupPlan talkingGroup) t := by
  obtain ⟨-, htexts, -⟩ := talkingGroup_facts
  obtain ⟨hnot, t, ht⟩ := talkingGroup_migrates
  have hr : talkingGroup.models.BuiltIn := builtIn_aliceStore _
  refine ⟨t, ht, fun hcarried => ?_⟩
  have hkept := (migration_keeps_content_iff _ _ countingDraws hr.chat hr.drive ht).mp hcarried
  unfold groupPlan at hnot
  rw [if_neg (Bool.eq_false_iff.mp hnot)] at hkept
  rw [hkept.messages] at htexts
  cases htexts

/-- **The message is lost.** -/
theorem messages_lost :
    ¬ ∀ (s : Inner) (w : ℕ → Draw) (t : Inner) (d : DocRow), d ∈ queryDocs s "group" none →
      applyOne s w (planFor d (Store.docIdText d.id)) = (t, .ok ()) →
      Carried d (planFor d (Store.docIdText d.id)) t := by
  intro h
  obtain ⟨hrow, htexts, -⟩ := talkingGroup_facts
  obtain ⟨hnot, t, ht⟩ := talkingGroup_migrates
  have hr : talkingGroup.models.BuiltIn := builtIn_aliceStore _
  have hcarried := h talkingGroup countingDraws t (groupRow talkingGroup) (groupRow_mem hrow) ht
  obtain ⟨hchats, hdrive⟩ := applyOne_hollow hr.chat hr.drive hnot (by rw [ht]; rfl)
  rw [ht] at hchats hdrive
  rw [((carried_iff_of_hollow hchats hdrive).mp hcarried).messages] at htexts
  cases htexts

end

end PhReactor
