/-
  The queue of LOCAL actions waiting for publication: `outbound`, which the tick drains, and the
  feed, which the engine receives from.

  1. Only an accepted action enters the queue (`mem_queue_exec`).

  2. No event takes an entry away (`isSome_entry_exec`).

  So the document of every queued action is here (`QueueHeld`), in every run on every disk.
-/
import PhReactor.Store.Events

set_option linter.unusedSectionVars false

namespace PhReactor

variable [Primitives]

/-- The local actions waiting for publication. -/
def Inner.queue (s : Inner) : List Action := s.outbound ++ s.outboundFeed.getD []

theorem Inner.mem_queue {s : Inner} {b : Action} :
    b ∈ s.queue ↔ b ∈ s.outbound ∨ b ∈ s.outboundFeed.getD [] := List.mem_append

/-! ## What enters the queue -/

theorem Inner.mem_queue_publish {s : Inner} {a b : Action} (h : b ∈ (s.publish a).queue) :
    b ∈ s.queue ∨ b = a := by
  unfold Inner.publish at h
  dsimp only at h
  split at h
  · rw [Inner.mem_queue] at h ⊢
    dsimp only at h
    rcases h with h | h
    · rcases List.mem_append.mp h with h | h
      · exact Or.inl (Or.inl h)
      · exact Or.inr (List.mem_singleton.mp h)
    · cases hfeed : s.outboundFeed with
      | none =>
        rw [hfeed] at h
        exact absurd h List.not_mem_nil
      | some sent =>
        rw [hfeed, Option.map_some, Option.getD_some] at h
        rcases List.mem_append.mp h with h | h
        · exact Or.inl (Or.inr h)
        · exact Or.inr (List.mem_singleton.mp h)
  · exact Or.inl h

theorem Inner.queue_persistAction (s : Inner) (io : Io) (a : Action) :
    (s.persistAction io a).queue = s.queue := by
  unfold Inner.persistAction
  split <;> rfl

theorem Inner.queue_snapshot (s : Inner) (io : Io) (id : DocId) :
    (s.snapshot io id).1.queue = s.queue := by
  unfold Inner.snapshot
  repeat' split
  all_goals rfl

theorem Inner.queue_indexName (s : Inner) (id : DocId) : (s.indexName id).queue = s.queue := by
  unfold Inner.indexName
  repeat' split
  all_goals rfl

theorem Inner.queue_emitChange (s : Inner) (id : DocId) (ts : U64) (a : Option Action) :
    (s.emitChange id ts a).queue = s.queue := by
  unfold Inner.emitChange
  split <;> rfl

theorem Inner.mem_queue_recorded {s : Inner} {io : Io} {a b : Action} {any : Bool}
    (h : b ∈ (s.recorded io a any).1.queue) : b ∈ s.queue ∨ b = a := by
  have hauto : ∀ t : Inner, (t.autoSnapshot io a.docId).1.queue = t.queue := by
    intro t
    unfold Inner.autoSnapshot
    split
    · exact t.queue_snapshot io a.docId
    · rfl
  unfold Inner.recorded at h
  rw [hauto] at h
  cases any with
  | true => exact s.queue_persistAction io a ▸ Inner.mem_queue_publish h
  | false => exact Or.inl (s.queue_persistAction io a ▸ h)

theorem Inner.mem_queue_finishApply {s : Inner} {io : Io} {a b : Action} {any del : Bool}
    (h : b ∈ (s.finishApply io a any del).1.queue) : b ∈ s.queue ∨ b = a := by
  suffices hrec : b ∈ (s.recorded io a any).1.queue from Inner.mem_queue_recorded hrec
  rcases s.finishApply_cases io a any del with ⟨⟨e, heq⟩, -⟩ | ⟨-, heq⟩
  · rw [heq] at h
    exact h
  · rw [heq] at h
    dsimp only at h
    split at h
    · rw [Inner.queue_emitChange, Inner.queue_indexName] at h
      exact h
    · rw [Inner.queue_indexName] at h
      exact h

/-- **Only an accepted action enters the queue.** -/
theorem Inner.mem_queue_exec {s : Inner} {ev : Event} {b : Action} (h : b ∈ (s.exec ev).queue) :
    b ∈ s.queue ∨ ∃ io m, ev = .applyAction io b ∧ s.Accepted b m := by
  cases ev with
  | applyAction io a =>
    replace h : b ∈ (s.applyAction io a).1.queue := h
    rcases s.applyAction_cases io a with
      ⟨r, -, heq⟩ | ⟨m, r, -, -, heq⟩ | ⟨m, msg, -, -, heq⟩ | ⟨m, hacc, any, del, heq⟩
    · rw [heq] at h; exact Or.inl h
    · rw [heq] at h; exact Or.inl h
    · rw [heq] at h; exact Or.inl h
    · rw [heq] at h
      rcases Inner.mem_queue_finishApply h with h | rfl
      · exact Or.inl h
      · exact Or.inr ⟨io, m, rfl, hacc⟩
  | snapshot io id => exact Or.inl (s.queue_snapshot io id ▸ h)
  | adoptState st =>
    replace h : b ∈ (Inner.emitChange _ _ _ _).queue := h
    rw [Inner.queue_emitChange] at h
    exact Or.inl h
  | registerPeerKey o k =>
    have hqueue : (Store.registerPeerKey s o k).1.queue = s.queue := by
      unfold Store.registerPeerKey
      repeat' split
      all_goals rfl
    exact Or.inl (hqueue ▸ h)
  | drainOutbound =>
    rcases List.mem_append.mp h with h | h
    · exact absurd h List.not_mem_nil
    · exact Or.inl (List.mem_append_right _ h)
  | connectOutbound =>
    rcases List.mem_append.mp h with h | h
    · exact Or.inl (List.mem_append_left _ h)
    · exact absurd h List.not_mem_nil
  | newEntry id sp => exact Or.inl h
  | nextTs now => exact Or.inl h
  | bindName name id => exact Or.inl h
  | addModel m => exact Or.inl h
  | subscribeChanges => exact Or.inl h

/-! ## Entries stay -/

theorem View.isSome_snapshot {v : View} (io : Io) (h : v.entry.isSome = true) :
    (v.snapshot io).entry.isSome = true := by
  obtain ⟨l, hentry⟩ := v.entry_snapshot io
  rw [hentry, Option.isSome_map]
  exact h

theorem View.isSome_finish {v : View} (io : Io) (a : Action) (h : v.entry.isSome = true) :
    (v.finish io a).entry.isSome = true := by
  obtain ⟨e, he⟩ := Option.isSome_iff_exists.mp h
  obtain ⟨l, hentry⟩ := View.entry_finish he io a
  rw [hentry]
  rfl

/-- A document that is here stays here, and so does that of an accepted action. -/
theorem DocStep.isSome_entry {s : Inner} {d : DocId} {ev : Event} {v : View} (h : DocStep s d ev v)
    (hd : s.entries[d]?.isSome = true ∨
      ∃ io a m, ev = .applyAction io a ∧ a.docId = d ∧ s.Accepted a m) :
    v.entry.isSome = true := by
  cases h with
  | stay hno =>
    rcases hd with hd | ⟨io, a, m, rfl, hdoc, hacc⟩
    · exact hd
    · exact absurd hacc (hno io a rfl hdoc m)
  | created sp hnew hno => rfl
  | accepted hdoc hacc => exact View.isSome_finish _ _ rfl
  | stuck hdoc hacc hres => rfl
  | snapshot io =>
    rcases hd with hd | ⟨io, a, m, heq, -⟩
    · exact View.isSome_snapshot io hd
    · cases heq
  | adopted hdoc => rfl

/-- **No event takes an entry away.** -/
theorem isSome_entry_exec {s : Inner} {ev : Event} {d : DocId}
    (hd : s.entries[d]?.isSome = true ∨
      ∃ io a m, ev = .applyAction io a ∧ a.docId = d ∧ s.Accepted a m) :
    (s.exec ev).entries[d]?.isSome = true := by
  by_cases hen : ev.Enabled s
  · exact (docStep_exec s ev hen d).isSome_entry hd
  · -- a blank entry over one that is there
    cases ev with
    | newEntry id sp =>
      show (s.entries.insert id { Entry.new id with space := sp })[d]?.isSome = true
      rw [Std.ExtTreeMap.getElem?_insert]
      split
      · rfl
      · rcases hd with hd | ⟨io, a, m, heq, -⟩
        · exact hd
        · cases heq
    | _ => exact absurd trivial hen

/-! ## The queue is held -/

/-- The document of every queued action is here. -/
def QueueHeld (s : Inner) : Prop := ∀ a ∈ s.queue, s.entries[a.docId]?.isSome = true

theorem queueHeld_exec {s : Inner} (h : QueueHeld s) (ev : Event) : QueueHeld (s.exec ev) := by
  intro b hb
  rcases Inner.mem_queue_exec hb with hb | ⟨io, m, rfl, hacc⟩
  · exact isSome_entry_exec (Or.inl (h b hb))
  · exact isSome_entry_exec (Or.inr ⟨io, b, m, rfl, rfl, hacc⟩)

/-- A store that was just opened has nothing to publish. -/
theorem queue_openWithModels (disk : Disk) (key : SigningKey) (origin : Origin)
    (extra : List Model) : (Store.openWithModels disk key origin extra).queue = [] := by
  have hdoc : ∀ (s : Inner) (id : DocId), (s.replayDoc id).queue = s.queue := by
    intro s id
    unfold Inner.replayDoc
    dsimp only
    split
    · split <;> rfl
    · split <;> rfl
  have hloop : ∀ (ids : List DocId) (s : Inner),
      (ids.foldl (fun s id => s.replayDoc id) s).queue = s.queue := by
    intro ids
    induction ids with
    | nil => exact fun s => rfl
    | cons id ids ih => exact fun s => (ih _).trans (hdoc s id)
  exact hloop _ _

theorem queueHeld_openWithModels (disk : Disk) (key : SigningKey) (origin : Origin)
    (extra : List Model) : QueueHeld (Store.openWithModels disk key origin extra) := by
  intro a ha
  rw [queue_openWithModels] at ha
  exact absurd ha List.not_mem_nil

end PhReactor
