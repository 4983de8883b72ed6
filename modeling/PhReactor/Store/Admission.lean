/-
  Admission and the order of arrival.

  A re-fold judges an action at its canonical place; `applyAction` judges it FIRST in the state it
  meets, and an action refused there is gone.  So which actions count may depend on which of them
  came first: a post that overtakes the `init` of its group is refused, and the store that got them
  in the other order shows it (`post_before_init_refused`).

  `Delivered d r s l A F` is a store that got the actions `l` of `d`, one call each: it has admitted
  `A` of them and its snapshots have folded in `F`.  Its document is the canonical fold of `A`
  (`DeliveredInv`).  Two stores then agree whenever each action that one of them admitted and the
  other refused is passed over by the canonical fold anyway (`same_state_any_order`): leaving such
  actions out does not change the fold (`foldl_filter_passedOver`).
-/
import PhReactor.Store.Snapshots

set_option linter.unusedSectionVars false

namespace PhReactor

section

variable [Primitives]

/-! ## Actions that a fold passes over -/

/-- The checks a re-fold makes fail: it would pass the action over. -/
def passesOver (r : ModelRegistry) (e : Entry) (a : Action) : Bool :=
  match r.find a.model with
  | some m => !((m.checkPrecondition e.doc a).isOk && (m.authorize e.doc a).isOk)
  | none => true

theorem foldStep_of_passesOver {r : ModelRegistry} {e : Entry} {a : Action}
    (h : passesOver r e a = true) : foldStep r e a = e := by
  unfold passesOver at h
  unfold foldStep
  cases hm : r.find a.model with
  | none => rfl
  | some m =>
    rw [hm] at h
    have hfail : ¬ ((m.checkPrecondition e.doc a).isOk && (m.authorize e.doc a).isOk) = true := by
      rw [Bool.not_eq_true, ← Bool.not_eq_true']
      exact h
    show refoldStep e a m = e
    unfold refoldStep
    rw [if_neg hfail]

/-- Wherever `a` stands in the list, a fold that starts from `e` passes it over. -/
def passedOver (r : ModelRegistry) (a : Action) : Entry → List Action → Bool
  | _, [] => true
  | e, b :: l => (b != a || passesOver r e a) && passedOver r a (foldStep r e b) l

/-- Leaving out actions that are passed over where they stand does not change a fold. -/
theorem foldl_filter_passedOver {r : ModelRegistry} {keep : Action → Bool} :
    ∀ (l : List Action) (e : Entry), (∀ a ∈ l, keep a = false → passedOver r a e l = true) →
      (l.filter keep).foldl (foldStep r) e = l.foldl (foldStep r) e
  | [], _, _ => rfl
  | b :: l, e, hover => by
    have htail := foldl_filter_passedOver l (foldStep r e b) fun a ha (hkeep : keep a = false) => by
      have h := hover a (List.mem_cons_of_mem b ha) hkeep
      unfold passedOver at h
      exact (Bool.and_eq_true_iff.mp h).2
    rw [List.foldl_cons, ← htail]
    cases hb : keep b with
    | true => rw [List.filter_cons_of_pos hb]; rfl
    | false =>
      have h := hover b List.mem_cons_self hb
      unfold passedOver at h
      rw [bne_self_eq_false, Bool.false_or] at h
      rw [List.filter_cons_of_neg (by rw [hb]; exact Bool.false_ne_true),
        foldStep_of_passesOver (Bool.and_eq_true_iff.mp h).1]

/-- **The canonical fold does not see what it passes over**: the actions `A` of `T` have the fold of
    `T` when the others are passed over there. -/
theorem canonFold_eq_of_passedOver {r : ModelRegistry} {d : DocId} {A T : List Action}
    (hsep : KeySeparates {a | a ∈ T}) (hsub : ∀ a ∈ A, a ∈ T)
    (hover : ∀ a ∈ T, a ∉ A → passedOver r a (Entry.new d) (sortLog T) = true) :
    canonFold r (Entry.new d) A = canonFold r (Entry.new d) T := by
  classical
  have hsorted : Lib.KeySorted canonKey ((sortLog T).filter fun a => decide (a ∈ A)) :=
    (sortLog_keySorted T).sublist List.filter_sublist
  have hmem : ∀ a, a ∈ A ↔ a ∈ (sortLog T).filter fun a => decide (a ∈ A) := by
    intro a
    rw [List.mem_filter, decide_eq_true_iff, mem_sortLog]
    exact ⟨fun ha => ⟨hsub a ha, ha⟩, fun h => h.2⟩
  have hsepA : KeySeparates {a | a ∈ A} := fun a ha b hb => hsep a (hsub a ha) b (hsub b hb)
  -- sorting what is kept is keeping of what is sorted
  rw [canonFold_eq_of_mem_iff (lifted_entryNew d) hsepA hmem fun _ _ => rfl]
  have hsort : sortLog ((sortLog T).filter fun a => decide (a ∈ A)) =
      (sortLog T).filter fun a => decide (a ∈ A) := hsorted.canonSort_eq
  unfold canonFold
  rw [hsort]
  refine foldl_filter_passedOver (sortLog T) _ ?_
  intro a ha hkeep
  exact hover a (mem_sortLog.mp ha) (of_decide_eq_false hkeep)

/-! ## Deliveries -/

/-- A store that knew nothing of `d` and whose registry is `r` got the actions `l` of `d`, one call
    each, and is now `s`.  `A` are the ones it admitted where they arrived, `F` those its snapshots
    have folded in; nothing admitted sorts before one of `F`, and no snapshot file was torn. -/
inductive Delivered (d : DocId) (r : ModelRegistry) :
    Inner → List Action → List Action → List Action → Prop
  | start {s : Inner} (hblank : s.view d = ⟨none, none, none⟩) (hmodels : s.models = r) :
    Delivered d r s [] [] []
  | refused {s : Inner} {l A F : List Action} {io : Io} {a : Action} (h : Delivered d r s l A F)
    (hd : a.docId = d) (hno : ∀ m, ¬ s.Accepted a m) :
    Delivered d r (s.exec (.applyAction io a)) (l ++ [a]) A F
  | admitted {s : Inner} {l A F : List Action} {io : Io} {a : Action} {m : Model}
    (h : Delivered d r s l A F) (hd : a.docId = d) (hacc : s.Accepted a m)
    (hio : io.snap ≠ .torn) (hlate : ∀ b ∈ F, ¬ canonKey a < canonKey b) :
    Delivered d r (s.exec (.applyAction io a)) (l ++ [a]) (A ++ [a])
      (foldedAfter F (s.settled a m) ((s.exec (.applyAction io a)).entryFor d))

/-- What such a store holds: the canonical fold of what it admitted. -/
structure DeliveredInv (d : DocId) (r : ModelRegistry) (s : Inner) (l A F : List Action) :
    Prop where
  folded : FoldedInv d s F
  models : s.models = r
  mem : ∀ b, b ∈ F ++ (s.entryFor d).log ↔ b ∈ A
  sub : ∀ b ∈ A, b ∈ l

/-- A refused action changes nothing about `d` but, at most, leaves a blank entry. -/
theorem entryFor_refused {s : Inner} (io : Io) {a : Action} (hno : ∀ m, ¬ s.Accepted a m) :
    (s.exec (.applyAction io a)).entryFor a.docId = s.entryFor a.docId ∧
      (s.exec (.applyAction io a)).disk.snap[a.docId]? = s.disk.snap[a.docId]? := by
  have hstep := docStep_applyAction s io a a.docId
  have hfor : ∀ v : View, (s.applyAction io a).1.view a.docId = v →
      (s.exec (.applyAction io a)).entryFor a.docId = v.entry.getD (Entry.new a.docId) ∧
        (s.exec (.applyAction io a)).disk.snap[a.docId]? = v.snap :=
    fun v hv => hv ▸ ⟨rfl, rfl⟩
  generalize hv : (s.applyAction io a).1.view a.docId = v at hstep
  obtain ⟨hentry, hsnap⟩ := hfor v hv
  rw [hentry, hsnap]
  cases hstep with
  | stay _ => exact ⟨rfl, rfl⟩
  | created sp hnew hsp =>
    obtain ⟨rfl, -⟩ := hsp io a rfl
    refine ⟨?_, rfl⟩
    rw [entryFor_of_none hnew]
    rfl
  | accepted _ hacc => exact absurd hacc (hno _)
  | stuck _ hacc _ => exact absurd hacc (hno _)

/-- **Run lemma** for deliveries. -/
theorem deliveredInv_run {d : DocId} {r : ModelRegistry} {s : Inner} {l A F : List Action}
    (h : Delivered d r s l A F) : DeliveredInv d r s l A F := by
  induction h with
  | start hblank hmodels =>
    refine ⟨foldedInv_blank hblank, hmodels, ?_, fun b hb => absurd hb List.not_mem_nil⟩
    rw [entryFor_blank hblank]
    exact fun b => Iff.rfl
  | @refused s l A F io a _ hd hno ih =>
    subst hd
    obtain ⟨hfor, hsnap⟩ := entryFor_refused io hno
    have hmodels := (s.sameSetup_applyAction io a).models
    refine ⟨ih.folded.congr hfor hsnap hmodels, hmodels.trans ih.models, ?_, ?_⟩
    · rw [hfor]; exact ih.mem
    · exact fun b hb => List.mem_append_left _ (ih.sub b hb)
  | @admitted s l A F io a m _ hd hacc hio hlate ih =>
    subst hd
    obtain ⟨-, hperm⟩ := foldInv_settled hacc ih.folded.fold
    refine ⟨foldedInv_accept ih.folded hacc hio hlate,
      (s.sameSetup_applyAction io a).models.trans ih.models, ?_, ?_⟩
    · intro b
      rw [foldedAfter_append (holds_accept hacc ih.folded.fold hio).log, List.mem_append,
        hperm.mem_iff, List.mem_append, List.mem_append, ← or_assoc, ← List.mem_append, ih.mem]
    · intro b hb
      rcases List.mem_append.mp hb with hb | hb
      · exact List.mem_append_left _ (ih.sub b hb)
      · exact List.mem_append_right _ hb

/-- The document of such a store is the canonical fold of what it admitted. -/
theorem DeliveredInv.sameDoc {d : DocId} {r : ModelRegistry} {s : Inner} {l A F : List Action}
    (h : DeliveredInv d r s l A F) (hsep : KeySeparates {a | a ∈ l}) :
    SameDoc (s.entryFor d) (canonFold r (Entry.new d) A) := by
  have hsame := h.folded.sameDoc
  rw [h.models] at hsame
  have hsepA : KeySeparates {b | b ∈ F ++ (s.entryFor d).log} := by
    intro a ha b hb
    exact hsep a (h.sub a ((h.mem a).mp ha)) b (h.sub b ((h.mem b).mp hb))
  rwa [canonFold_eq_of_mem_iff (lifted_entryNew d) hsepA h.mem fun _ _ => rfl] at hsame

/-- **Same actions, same document**, in any two orders of arrival: when every action that one store
    admitted and the other refused is passed over at its canonical place anyway, the two end with
    the same fields, name and deleted flag. -/
theorem same_state_any_order {d : DocId} {r : ModelRegistry} {s s' : Inner}
    {l l' A A' F F' : List Action} (h : Delivered d r s l A F) (h' : Delivered d r s' l' A' F')
    (hperm : l.Perm l') (hsep : Action.HashSeparates {a | a ∈ l})
    (hover : ∀ a ∈ A ++ A', a ∉ A ∨ a ∉ A' →
      passedOver r a (Entry.new d) (sortLog (A ++ A')) = true) :
    (s.entryFor d).doc.fields = (s'.entryFor d).doc.fields ∧
      (s.entryFor d).doc.name = (s'.entryFor d).doc.name ∧
      (s.entryFor d).deleted = (s'.entryFor d).deleted := by
  have hinv := deliveredInv_run h
  have hinv' := deliveredInv_run h'
  have hmem : ∀ a, a ∈ l' ↔ a ∈ l := fun a => hperm.mem_iff.symm
  have hsep := hsep.keySeparates
  have hsep' : KeySeparates {a | a ∈ l'} := by
    intro a ha b hb
    exact hsep a ((hmem a).mp ha) b ((hmem b).mp hb)
  have hsepT : KeySeparates {a | a ∈ A ++ A'} := by
    have hl : ∀ a ∈ A ++ A', a ∈ l := by
      intro a ha
      rcases List.mem_append.mp ha with ha | ha
      · exact hinv.sub a ha
      · exact (hmem a).mp (hinv'.sub a ha)
    exact fun a ha b hb => hsep a (hl a ha) b (hl b hb)
  have hA := canonFold_eq_of_passedOver (d := d) (A := A) hsepT
    (fun a ha => List.mem_append_left _ ha) fun a ha hno => hover a ha (Or.inl hno)
  have hA' := canonFold_eq_of_passedOver (d := d) (A := A') hsepT
    (fun a ha => List.mem_append_right _ ha) fun a ha hno => hover a ha (Or.inr hno)
  have hsame := hinv.sameDoc hsep
  have hsame' := hinv'.sameDoc hsep'
  rw [hA] at hsame
  rw [hA'] at hsame'
  have hboth := hsame.trans hsame'.symm
  exact ⟨congrArg Doc.fields hboth.doc, congrArg Doc.name hboth.doc, hboth.deleted⟩

/-! ### Deliveries to evaluate -/

/-- The actions of a list that the store admits where they arrive. -/
def admittedOf (s : Inner) : List Action → List Action
  | [] => []
  | a :: l => (if s.accepts a then [a] else []) ++ admittedOf (s.exec (.applyAction Io.ok a)) l

/-- No delivery of the list is followed by a snapshot. -/
def noSnapshots (d : DocId) (s : Inner) : List Action → Bool
  | [] => true
  | a :: l => a.docId == d &&
      !(s.accepts a && ((s.exec (.applyAction Io.ok a)).entryFor d).log == [])
      && noSnapshots d (s.exec (.applyAction Io.ok a)) l

theorem delivered_deliver {d : DocId} {r : ModelRegistry} : ∀ (l : List Action) {s : Inner}
    {l₀ A : List Action}, Delivered d r s l₀ A [] → noSnapshots d s l = true →
    Delivered d r (s.execAll (Sample.deliver l)) (l₀ ++ l) (A ++ admittedOf s l) []
  | [], s, l₀, A, h, _ => by
    rw [List.append_nil]
    show Delivered d r s l₀ (A ++ []) []
    rw [List.append_nil]
    exact h
  | a :: l, s, l₀, A, h, hno => by
    unfold noSnapshots at hno
    rw [Bool.and_eq_true, Bool.and_eq_true, beq_iff_eq] at hno
    obtain ⟨⟨hd, hlog⟩, hrest⟩ := hno
    rw [show l₀ ++ a :: l = (l₀ ++ [a]) ++ l by simp, admittedOf, ← List.append_assoc]
    refine delivered_deliver l ?_ hrest
    cases hacc : s.accepts a with
    | false =>
      have hno : ∀ m, ¬ s.Accepted a m := by
        intro m hm
        rw [Inner.accepts_iff.mpr ⟨m, hm⟩] at hacc
        cases hacc
      have hrefused : Delivered d r (s.exec (.applyAction Io.ok a)) (l₀ ++ [a]) A [] :=
        .refused h hd hno
      simpa using hrefused
    | true =>
      obtain ⟨m, hm⟩ := Inner.accepts_iff.mp hacc
      have hok : Io.ok.snap ≠ .torn := by decide
      have hadmitted := Delivered.admitted h hd hm hok fun b hb => absurd hb List.not_mem_nil
      have hne : ((s.exec (.applyAction Io.ok a)).entryFor d).log ≠ [] := by
        simpa [hacc] using hlog
      rw [foldedAfter, if_neg hne] at hadmitted
      simpa using hadmitted

end

section

open Sample

attribute [local instance] Sample.primitives

/-- A node that knows alice's and bob's keys, and no document. -/
def blankStore : Inner := (Store.fresh alice.key alice.name []).execAll (pins [alice, bob])

/-- Bob's post, made after alice's `init`. -/
def firstPost : Action := post bob "yo" 21 [("alice", 1), ("bob", 1)]

/-- The group's `init` and a post of it, in two orders: the store that gets the post first refuses
    it, and never shows it. -/
theorem post_before_init_refused :
    [groupInit, firstPost].Perm [firstPost, groupInit] ∧
      (∀ a ∈ [groupInit, firstPost], blankStore.checkSignatures a = .ok ()) ∧
      messages (blankStore.execAll (deliver [groupInit, firstPost])) = [.string "yo"] ∧
      messages (blankStore.execAll (deliver [firstPost, groupInit])) = [] := by
  refine ⟨List.Perm.swap .., ?_⟩
  decide +kernel

/-- Bob is removed, canonically BEFORE his post.  The store that hears of the removal first refuses
    the post; the other admits it and its re-fold passes it over. -/
theorem same_state_any_order_removed_member :
    admittedOf blankStore [groupInit, removeBob 20, firstPost] = [groupInit, removeBob 20] ∧
      admittedOf blankStore [groupInit, firstPost, removeBob 20] =
        [groupInit, firstPost, removeBob 20] ∧
      ((blankStore.execAll (deliver [groupInit, removeBob 20, firstPost])).entryFor
          docId).doc.fields =
        ((blankStore.execAll (deliver [groupInit, firstPost, removeBob 20])).entryFor
          docId).doc.fields := by
  have hblank : blankStore.view docId = ⟨none, none, none⟩ :=
    ((Inner.view_registerPeerKey ..).trans (Inner.view_registerPeerKey ..)).trans
      (Store.fresh_view ..)
  have hstart : Delivered docId blankStore.models blankStore [] [] [] := .start hblank rfl
  have hfacts : noSnapshots docId blankStore [groupInit, removeBob 20, firstPost] = true ∧
      noSnapshots docId blankStore [groupInit, firstPost, removeBob 20] = true ∧
      admittedOf blankStore [groupInit, removeBob 20, firstPost] = [groupInit, removeBob 20] ∧
      admittedOf blankStore [groupInit, firstPost, removeBob 20] =
        [groupInit, firstPost, removeBob 20] ∧
      (∀ a ∈ [groupInit, removeBob 20, firstPost],
        ∀ b ∈ [groupInit, removeBob 20, firstPost], a.hash = b.hash → a = b) ∧
      ∀ a ∈ [groupInit, removeBob 20] ++ [groupInit, firstPost, removeBob 20],
        a ∉ [groupInit, removeBob 20] ∨ a ∉ [groupInit, firstPost, removeBob 20] →
        passedOver blankStore.models a (Entry.new docId)
          (sortLog ([groupInit, removeBob 20] ++ [groupInit, firstPost, removeBob 20])) = true := by
    decide +kernel
  obtain ⟨hno, hno', hA, hA', hsep, hover⟩ := hfacts
  have h := delivered_deliver _ hstart hno
  have h' := delivered_deliver _ hstart hno'
  rw [List.nil_append, List.nil_append, hA] at h
  rw [List.nil_append, List.nil_append, hA'] at h'
  refine ⟨hA, hA', (same_state_any_order h h' ?_ ?_ hover).1⟩
  · exact List.Perm.cons _ (List.Perm.swap ..)
  · intro a ha b hb hab
    rw [hsep a ha b hb hab]
    rfl

end

end PhReactor
