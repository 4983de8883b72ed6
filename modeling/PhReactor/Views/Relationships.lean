/-
  The queries over the relationship graph (`views/src/relationship.rs`).

  `EdgeMap` is the index of `Views.Indexes`; both queries take their work from a stack, the last
  element of the vector on top, until it is empty.  A run has an amount of fuel, one for each turn
  of the loop, and no result when it runs out.

  1. `findPath` follows the edges forward.  It keeps no marks: a path of more than eight nodes is
     not extended, so the loop ends, and what it found is the tree of all paths in preorder
     (`pathLoop_eq`).  How often a sequence is found is counted along the sequence: a step for each
     field that has the target (`count_preorder`, `ways_eq`).

  2. `ancestors` follows them backwards and marks what it has seen, but not the node it starts from.
     An edge from a node to itself is skipped.  The order in which the hash map is gone through is
     a parameter.
-/
import PhReactor.Lib.TreeMap
import PhReactor.Lib.Worklist
import PhReactor.Views.Indexes

namespace PhReactor.RelationshipIndex

/-- `field ↦ targets`, of one source. -/
abbrev Fields := Std.ExtTreeMap String (Std.ExtTreeSet String)

/-! ## Paths -/

/-- The targets, one field after the other. -/
def targets (m : Fields) : List String := m.toList.flatMap fun e => e.2.toList

/-- The turns of `find_path`. -/
def pathLoop (g : EdgeMap) (to' : String) :
    ℕ → List (List String) → List (List String) → Option (List (List String))
  | _, [], paths => some paths
  | 0, _ :: _, _ => none
  | fuel + 1, path :: stack, paths =>
    match path.getLast? with
    | none => none -- `unwrap`
    | some last =>
      if last = to' then pathLoop g to' fuel stack (paths ++ [path])
      else if path.length > 8 then pathLoop g to' fuel stack paths
      else
        match g[last]? with
        | some m =>
          pathLoop g to' fuel
            ((targets m).foldl (fun stack t => (path ++ [t]) :: stack) stack) paths
        | none => pathLoop g to' fuel stack paths

/-- Vectors are ordered like words. -/
def pathLe (p q : List String) : Bool := (List.compareLex compare p q).isLE

/-- All directed paths from `from'` to `to'` (bounded), across any relationship. -/
def findPath (g : EdgeMap) (from' to' : String) (fuel : ℕ) : Option (List (List String)) :=
  (pathLoop g to' fuel [[from']] []).map fun paths => paths.mergeSort pathLe

/-! ## Edges -/

/-- Some relationship leads from `a` to `b`. -/
def Edge (g : EdgeMap) (a b : String) : Prop := ∃ field, b ∈ outgoing g a field

/-- The fields by which a sequence of nodes is followed, one for each step. -/
inductive Realises (g : EdgeMap) : List String → List String → Prop where
  | last (a : String) : Realises g [] [a]
  | step {a b field : String} {fields seq : List String} (hedge : b ∈ outgoing g a field)
      (hrest : Realises g fields (b :: seq)) : Realises g (field :: fields) (a :: b :: seq)

/-- The fields by which `a` leads to `b`. -/
def fieldsTo (g : EdgeMap) (a b : String) : List String :=
  ((g[a]?.getD ∅).toList.filter fun e => e.2.contains b).map Prod.fst

theorem mem_fieldsTo {g : EdgeMap} {a b field : String} :
    field ∈ fieldsTo g a b ↔ b ∈ outgoing g a field := by
  unfold fieldsTo outgoing
  cases hfields : g[a]? with
  | none => simp
  | some m =>
    rw [Option.getD_some, Option.bind_some, List.mem_map]
    constructor
    · rintro ⟨⟨f, s⟩, hmem, rfl⟩
      obtain ⟨hin, hcontains⟩ := List.mem_filter.mp hmem
      rw [Lib.mem_toList.mp hin]
      exact Std.ExtTreeSet.mem_toList.mpr hcontains
    · intro hin
      cases hs : m[field]? with
      | none =>
        rw [hs] at hin
        cases hin
      | some s =>
        rw [hs] at hin
        exact ⟨(field, s), List.mem_filter.mpr ⟨Lib.mem_toList.mpr hs,
          Std.ExtTreeSet.mem_toList.mp hin⟩, rfl⟩

theorem nodup_fieldsTo (g : EdgeMap) (a b : String) : (fieldsTo g a b).Nodup := by
  unfold fieldsTo
  exact List.pairwise_map.mpr ((Lib.distinct_toList _).filter _)

/-- All choices of fields. -/
def realisations (g : EdgeMap) : List String → List (List String)
  | a :: b :: seq =>
    (fieldsTo g a b).flatMap fun field => (realisations g (b :: seq)).map (field :: ·)
  | _ => [[]]

theorem mem_realisations {g : EdgeMap} {seq : List String} :
    ∀ {a : String} {fields : List String},
      fields ∈ realisations g (a :: seq) ↔ Realises g fields (a :: seq) := by
  induction seq with
  | nil =>
    intro a fields
    show fields ∈ [[]] ↔ _
    rw [List.mem_singleton]
    constructor
    · rintro rfl
      exact Realises.last a
    · rintro ⟨⟩
      rfl
  | cons b seq ih =>
    intro a fields
    show fields ∈ (fieldsTo g a b).flatMap _ ↔ _
    rw [List.mem_flatMap]
    constructor
    · rintro ⟨field, hfield, hin⟩
      obtain ⟨fields, hrest, rfl⟩ := List.mem_map.mp hin
      exact Realises.step (mem_fieldsTo.mp hfield) (ih.mp hrest)
    · intro h
      cases h with
      | step hedge hrest =>
        exact ⟨_, mem_fieldsTo.mpr hedge, List.mem_map_of_mem (ih.mpr hrest)⟩

theorem nodup_realisations (g : EdgeMap) (seq : List String) :
    ∀ a : String, (realisations g (a :: seq)).Nodup := by
  induction seq with
  | nil => exact fun a => List.nodup_singleton []
  | cons b seq ih =>
    intro a
    show List.Nodup ((fieldsTo g a b).flatMap _)
    refine List.nodup_flatMap.mpr ⟨fun field _ => ?_, ?_⟩
    · exact (ih b).map fun x y h => (List.cons.inj h).2
    · refine (nodup_fieldsTo g a b).imp fun hne => ?_
      intro fields h h'
      obtain ⟨x, -, rfl⟩ := List.mem_map.mp h
      obtain ⟨y, -, heq⟩ := List.mem_map.mp h'
      exact hne (List.cons.inj heq).1.symm

/-! ## The tree of the paths -/

def targetsOf (g : EdgeMap) (a : String) : List String := (g[a]?.map targets).getD []

/-- A path that has arrived. -/
def arrived (to' : String) (path : List String) : List (List String) :=
  if path.getLast? = some to' then [path] else []

/-- The paths that are one edge longer, the one that was pushed last on top. -/
def extensions (g : EdgeMap) (to' : String) (path : List String) : List (List String) :=
  match path.getLast? with
  | none => []
  | some last =>
    if last = to' ∨ path.length > 8 then []
    else ((targetsOf g last).map fun t => path ++ [t]).reverse

theorem mem_extensions {g : EdgeMap} {to' : String} {path next : List String}
    (h : next ∈ extensions g to' path) : path.length ≤ 8 ∧ ∃ t, next = path ++ [t] := by
  unfold extensions at h
  split at h
  · cases h
  · split at h
    · cases h
    · next hgo =>
      obtain ⟨t, -, rfl⟩ := List.mem_map.mp (List.mem_reverse.mp h)
      exact ⟨Nat.le_of_not_lt fun hlt => hgo (Or.inr hlt), t, rfl⟩

/-- What a path may still grow. -/
def room (path : List String) : ℕ := 9 - path.length

theorem room_lt (g : EdgeMap) (to' : String) :
    ∀ path, ∀ next ∈ extensions g to' path, room next < room path := by
  intro path next h
  obtain ⟨hshort, t, rfl⟩ := mem_extensions h
  unfold room
  rw [List.length_append, List.length_singleton]
  omega

theorem foldl_push (path l : List String) (stack : List (List String)) :
    l.foldl (fun stack t => (path ++ [t]) :: stack) stack =
      (l.map fun t => path ++ [t]).reverse ++ stack := by
  induction l generalizing stack with
  | nil => rfl
  | cons t l ih =>
    rw [List.foldl_cons, ih, List.map_cons, List.reverse_cons, List.append_assoc]
    rfl

/-- **The loop unfolds the tree of the paths.** -/
theorem pathLoop_eq (g : EdgeMap) (to' : String) {fuel : ℕ} {stack : List (List String)}
    (paths : List (List String)) (hne : ∀ path ∈ stack, path ≠ []) :
    pathLoop g to' fuel stack paths =
      Lib.unfoldStack (arrived to') (extensions g to') fuel stack paths := by
  induction fuel generalizing stack paths with
  | zero =>
    cases stack with
    | nil => rfl
    | cons path stack => rfl
  | succ fuel ih =>
    cases stack with
    | nil => rfl
    | cons path stack =>
      obtain ⟨last, hlast⟩ : ∃ last, path.getLast? = some last :=
        Option.ne_none_iff_exists'.mp fun h => hne path List.mem_cons_self
          (List.getLast?_eq_none_iff.mp h)
      have hrest : ∀ path ∈ stack, path ≠ [] := fun p hp => hne p (List.mem_cons_of_mem _ hp)
      unfold pathLoop Lib.unfoldStack arrived extensions
      rw [hlast]
      dsimp only
      by_cases harrived : last = to'
      · rw [if_pos harrived, if_pos (congrArg some harrived), if_pos (Or.inl harrived)]
        exact ih _ hrest
      · rw [if_neg harrived, if_neg fun h => harrived (Option.some.inj h), List.append_nil]
        by_cases hlong : path.length > 8
        · rw [if_pos hlong, if_pos (Or.inr hlong)]
          exact ih _ hrest
        · rw [if_neg hlong, if_neg (not_or.mpr ⟨harrived, hlong⟩)]
          unfold targetsOf
          cases hfields : g[last]? with
          | none => exact ih _ hrest
          | some m =>
            show pathLoop g to' fuel ((targets m).foldl _ stack) paths = _
            rw [foldl_push]
            refine ih _ fun p hp => ?_
            rcases List.mem_append.mp hp with hp | hp
            · obtain ⟨t, -, rfl⟩ := List.mem_map.mp (List.mem_reverse.mp hp)
              exact List.append_ne_nil_of_right_ne_nil path (List.cons_ne_nil t [])
            · exact hrest p hp

/-! ## Counting -/

/-- A target is met once for each field that has it. -/
theorem count_targetsOf (g : EdgeMap) (a b : String) :
    (targetsOf g a).count b = (fieldsTo g a b).length := by
  unfold targetsOf fieldsTo
  cases hfields : g[a]? with
  | none => rfl
  | some m =>
    show (m.toList.flatMap fun e => e.2.toList).count b = _
    rw [Option.getD_some, List.length_map]
    induction m.toList with
    | nil => rfl
    | cons e l ih =>
      rw [List.flatMap_cons, List.count_append, ih, List.filter_cons]
      have hnodup : e.2.toList.Nodup :=
        Std.ExtTreeSet.distinct_toList.imp fun h heq => h (Std.compare_eq_iff_eq.mpr heq)
      by_cases hin : e.2.contains b = true
      · rw [if_pos hin, List.length_cons,
          List.count_eq_one_of_mem hnodup (Std.ExtTreeSet.mem_toList.mpr hin)]
        omega
      · rw [if_neg hin,
          List.count_eq_zero_of_not_mem fun h => hin (Std.ExtTreeSet.mem_toList.mp h)]
        omega

/-- How often a sequence is found: a step for each field that has the target, and none after it has
    arrived. -/
def ways (g : EdgeMap) (to' : String) : String → List String → ℕ
  | last, [] => if last = to' then 1 else 0
  | last, t :: rest => if last = to' then 0 else (targetsOf g last).count t * ways g to' t rest

/-- What is found from a path on begins with it. -/
theorem exists_of_mem_preorder {g : EdgeMap} {to' : String} {n : ℕ} {path seq : List String}
    (h : seq ∈ Lib.preorder (arrived to') (extensions g to') n path) :
    ∃ rest, seq = path ++ rest ∧ rest.length ≤ n := by
  induction n generalizing path with
  | zero =>
    have hin : seq ∈ arrived to' path := h
    unfold arrived at hin
    split at hin
    · exact ⟨[], by rw [List.append_nil, List.mem_singleton.mp hin], Nat.le_refl 0⟩
    · cases hin
  | succ n ih =>
    rcases List.mem_append.mp h with hin | hin
    · unfold arrived at hin
      split at hin
      · exact ⟨[], by rw [List.append_nil, List.mem_singleton.mp hin], Nat.zero_le _⟩
      · cases hin
    · obtain ⟨next, hnext, hseq⟩ := List.mem_flatMap.mp hin
      obtain ⟨-, t, rfl⟩ := mem_extensions hnext
      obtain ⟨rest, rfl, hlen⟩ := ih hseq
      exact ⟨t :: rest, by rw [List.append_assoc]; rfl, Nat.succ_le_succ hlen⟩

/-- A sequence that goes on with `t` is found from there alone. -/
theorem count_flatMap_extended {path seq : List String} {t : String}
    {f : List String → List (List String)} (hother : ∀ t', t' ≠ t → seq ∉ f (path ++ [t']))
    (l : List String) : ((l.map fun t => path ++ [t]).flatMap f).count seq =
      l.count t * (f (path ++ [t])).count seq := by
  induction l with
  | nil =>
    rw [List.count_nil, Nat.zero_mul]
    rfl
  | cons t' l ih =>
    rw [List.map_cons, List.flatMap_cons, List.count_append, ih]
    by_cases heq : t' = t
    · subst heq
      rw [List.count_cons_self, Nat.succ_mul, Nat.add_comm]
    · rw [List.count_cons_of_ne heq, List.count_eq_zero_of_not_mem (hother t' heq), Nat.zero_add]

/-- **A sequence is found as often as it can be followed.** -/
theorem count_preorder (g : EdgeMap) (to' : String) {rest : List String} :
    ∀ {n : ℕ} {pre : List String} {last : String}, rest.length ≤ n → pre.length + n ≤ 8 →
      (Lib.preorder (arrived to') (extensions g to') n (pre ++ [last])).count
        (pre ++ last :: rest) = ways g to' last rest := by
  induction rest with
  | nil =>
    intro n pre last hlen hroom
    unfold ways
    cases n with
    | zero =>
      show (arrived to' (pre ++ [last])).count _ = _
      unfold arrived
      rw [List.getLast?_concat]
      by_cases harrived : last = to'
      · rw [if_pos (congrArg some harrived), if_pos harrived, List.count_singleton_self]
      · rw [if_neg fun h => harrived (Option.some.inj h), if_neg harrived, List.count_nil]
    | succ n =>
      show (arrived to' (pre ++ [last]) ++ (extensions g to' (pre ++ [last])).flatMap _).count _ = _
      -- what is found further on is longer
      have hlonger : ((extensions g to' (pre ++ [last])).flatMap
          (Lib.preorder (arrived to') (extensions g to') n)).count (pre ++ [last]) = 0 := by
        refine List.count_eq_zero_of_not_mem fun hin => ?_
        obtain ⟨next, hnext, hseq⟩ := List.mem_flatMap.mp hin
        obtain ⟨-, t, rfl⟩ := mem_extensions hnext
        obtain ⟨rest, heq, -⟩ := exists_of_mem_preorder hseq
        have hlength := congrArg List.length heq
        simp only [List.length_append, List.length_singleton] at hlength
        omega
      rw [List.count_append, hlonger, Nat.add_zero]
      unfold arrived
      rw [List.getLast?_concat]
      by_cases harrived : last = to'
      · rw [if_pos (congrArg some harrived), if_pos harrived, List.count_singleton_self]
      · rw [if_neg fun h => harrived (Option.some.inj h), if_neg harrived, List.count_nil]
  | cons t rest ih =>
    intro n pre last hlen hroom
    obtain ⟨n, rfl⟩ : ∃ m, n = m + 1 := Nat.exists_eq_succ_of_ne_zero (by
      rw [List.length_cons] at hlen
      omega)
    show (arrived to' (pre ++ [last]) ++ (extensions g to' (pre ++ [last])).flatMap _).count _ = _
    unfold arrived extensions ways
    rw [List.getLast?_concat]
    dsimp only
    by_cases harrived : last = to'
    · rw [if_pos (congrArg some harrived), if_pos (Or.inl harrived), if_pos harrived,
        List.flatMap_nil, List.append_nil]
      refine List.count_eq_zero_of_not_mem fun hin => ?_
      have hlength := congrArg List.length (List.mem_singleton.mp hin)
      simp at hlength
    · have hshort : ¬ (pre ++ [last]).length > 8 := by
        rw [List.length_append, List.length_singleton]
        omega
      rw [if_neg fun h => harrived (Option.some.inj h), if_neg (not_or.mpr ⟨harrived, hshort⟩),
        if_neg harrived, List.nil_append, ← List.map_reverse,
        count_flatMap_extended (t := t) ?_, List.count_reverse]
      · have hrest : (pre ++ [last]).length + n ≤ 8 := by
          rw [List.length_append, List.length_singleton]
          omega
        have hfound : _ = ways g to' t rest := ih (Nat.le_of_succ_le_succ hlen) hrest
        rw [List.append_assoc pre [last]] at hfound
        rw [← hfound]
        rfl
      · intro t' hne hin
        obtain ⟨rest', heq, -⟩ := exists_of_mem_preorder hin
        rw [List.append_assoc, List.append_assoc] at heq
        exact hne (List.cons.inj (List.cons.inj (List.append_cancel_left heq)).2).1.symm

/-- From the start there is room for eight steps. -/
theorem count_preorder_root (g : EdgeMap) (from' to' : String) {rest : List String}
    (h : rest.length ≤ 8) :
    (Lib.preorder (arrived to') (extensions g to') 8 [from']).count (from' :: rest) =
      ways g to' from' rest := by
  have hroom : ([] : List String).length + 8 ≤ 8 := Nat.le_refl 8
  exact count_preorder g to' h hroom

/-- A bounded walk: it arrives at its end only. -/
structure IsBoundedWalk (g : EdgeMap) (from' to' : String) (seq : List String) : Prop where
  short : seq.length ≤ 9
  starts : seq.head? = some from'
  ends : seq.getLast? = some to'
  nowhere_else : to' ∉ seq.dropLast
  follows : List.IsChain (Edge g) seq

theorem exists_realises_iff {g : EdgeMap} {seq : List String} : ∀ {a : String},
    (∃ fields, Realises g fields (a :: seq)) ↔ List.IsChain (Edge g) (a :: seq) := by
  induction seq with
  | nil => exact fun {a} => ⟨fun _ => List.isChain_singleton a, fun _ => ⟨[], Realises.last a⟩⟩
  | cons b seq ih =>
    intro a
    rw [List.isChain_cons_cons, ← ih]
    constructor
    · rintro ⟨fields, h⟩
      cases h with
      | step hedge hrest => exact ⟨⟨_, hedge⟩, _, hrest⟩
    · rintro ⟨⟨field, hedge⟩, fields, hrest⟩
      exact ⟨field :: fields, Realises.step hedge hrest⟩

/-- A sequence that arrives at its end only is found as often as there are choices of fields. -/
theorem ways_eq {g : EdgeMap} {to' : String} {rest : List String} :
    ∀ {a : String}, (a :: rest).getLast? = some to' → to' ∉ (a :: rest).dropLast →
      ways g to' a rest = (realisations g (a :: rest)).length := by
  induction rest with
  | nil =>
    intro a hends _
    exact if_pos (Option.some.inj hends)
  | cons b rest ih =>
    intro a hends hnot
    rw [List.dropLast_cons_cons, List.mem_cons, not_or] at hnot
    rw [List.getLast?_cons_cons] at hends
    unfold ways
    rw [if_neg fun h => hnot.1 h.symm, ih hends hnot.2, count_targetsOf]
    show _ = ((fieldsTo g a b).flatMap _).length
    rw [List.length_flatMap]
    simp

/-- Any other sequence is not found. -/
theorem ways_eq_zero {g : EdgeMap} {to' : String} {rest : List String} :
    ∀ {a : String}, ¬ ((a :: rest).getLast? = some to' ∧ to' ∉ (a :: rest).dropLast) →
      ways g to' a rest = 0 := by
  induction rest with
  | nil =>
    intro a h
    refine if_neg fun heq => h ⟨congrArg some heq, List.not_mem_nil⟩
  | cons b rest ih =>
    intro a h
    unfold ways
    by_cases harrived : a = to'
    · exact if_pos harrived
    · rw [if_neg harrived, ih, Nat.mul_zero]
      rintro ⟨hends, hnot⟩
      refine h ⟨by rwa [List.getLast?_cons_cons], ?_⟩
      rw [List.dropLast_cons_cons, List.mem_cons, not_or]
      exact ⟨fun heq => harrived heq.symm, hnot⟩

theorem mem_preorder_iff {g : EdgeMap} {from' to' : String} {seq : List String} :
    seq ∈ Lib.preorder (arrived to') (extensions g to') 8 [from'] ↔
      IsBoundedWalk g from' to' seq := by
  have hcount : ∀ rest : List String, rest.length ≤ 8 →
      (Lib.preorder (arrived to') (extensions g to') 8 [from']).count (from' :: rest) =
        ways g to' from' rest := fun rest h => count_preorder_root g from' to' h
  constructor
  · intro hin
    obtain ⟨rest, rfl, hlen⟩ := exists_of_mem_preorder hin
    have hpos := List.count_pos_iff.mpr hin
    rw [List.singleton_append] at hpos ⊢
    rw [hcount rest hlen] at hpos
    by_cases harrives : (from' :: rest).getLast? = some to' ∧ to' ∉ (from' :: rest).dropLast
    · rw [ways_eq harrives.1 harrives.2] at hpos
      obtain ⟨fields, hfields⟩ := List.exists_mem_of_length_pos hpos
      exact ⟨Nat.succ_le_succ hlen, rfl, harrives.1, harrives.2,
        exists_realises_iff.mp ⟨fields, mem_realisations.mp hfields⟩⟩
    · rw [ways_eq_zero harrives] at hpos
      exact absurd hpos (Nat.lt_irrefl 0)
  · rintro ⟨hshort, hstarts, hends, hnot, hfollows⟩
    obtain ⟨rest, rfl⟩ : ∃ rest, seq = from' :: rest := List.head?_eq_some_iff.mp hstarts
    obtain ⟨fields, hfields⟩ := exists_realises_iff.mpr hfollows
    rw [← List.count_pos_iff]
    refine Nat.lt_of_lt_of_eq ?_ (hcount rest (Nat.le_of_succ_le_succ hshort)).symm
    rw [ways_eq hends hnot]
    exact List.length_pos_of_mem (mem_realisations.mpr hfields)

theorem pathLe_trans (p q r : List String) : pathLe p q = true → pathLe q r = true →
    pathLe p r = true := Std.TransCmp.isLE_trans

theorem pathLe_total (p q : List String) : (pathLe p q || pathLe q p) = true := by
  unfold pathLe
  have hswap : List.compareLex compare q p = (List.compareLex compare p q).swap :=
    Std.OrientedCmp.eq_swap
  rw [hswap]
  cases List.compareLex compare p q <;> rfl

/-- The run: it needs a turn for each node of the tree. -/
theorem findPath_eq {g : EdgeMap} {from' to' : String} {fuel : ℕ}
    (h : (Lib.preorder (fun _ => [()]) (extensions g to') 8 [from']).length ≤ fuel) :
    findPath g from' to' fuel =
      some ((Lib.preorder (arrived to') (extensions g to') 8 [from']).mergeSort pathLe) := by
  have hne : ∀ path ∈ [[from']], path ≠ [] := by
    intro path hpath
    rw [List.mem_singleton.mp hpath]
    exact List.cons_ne_nil from' []
  unfold findPath
  rw [pathLoop_eq g to' [] hne, Lib.unfoldStack_eq _ (room_lt g to') []]
  · rw [List.nil_append, List.flatMap_singleton]
    rfl
  · rw [List.flatMap_singleton]
    exact h

/-- **`findPath` lists the bounded walks**, sorted, each as often as there are choices of fields,
    and it always ends. -/
theorem findPath_walks (g : EdgeMap) (from' to' : String) : ∃ fuel₀ paths,
    (∀ fuel ≥ fuel₀, findPath g from' to' fuel = some paths) ∧
    (paths.Pairwise fun p q => pathLe p q = true) ∧
    (∀ seq, seq ∈ paths ↔ IsBoundedWalk g from' to' seq) ∧
    ∀ seq ∈ paths, ∃ choices : List (List String), choices.Nodup ∧
      (∀ fields, fields ∈ choices ↔ Realises g fields seq) ∧ paths.count seq = choices.length := by
  have hmem : ∀ seq,
      seq ∈ (Lib.preorder (arrived to') (extensions g to') 8 [from']).mergeSort pathLe ↔
        IsBoundedWalk g from' to' seq := fun seq => List.mem_mergeSort.trans mem_preorder_iff
  refine ⟨_, _, fun fuel hfuel => findPath_eq hfuel,
    List.pairwise_mergeSort pathLe_trans pathLe_total _, hmem, fun seq hseq => ?_⟩
  obtain ⟨hshort, hstarts, hends, hnot, -⟩ := (hmem seq).mp hseq
  obtain ⟨rest, rfl⟩ : ∃ rest, seq = from' :: rest := List.head?_eq_some_iff.mp hstarts
  refine ⟨realisations g (from' :: rest), nodup_realisations g rest from',
    fun fields => mem_realisations, ?_⟩
  rw [(List.mergeSort_perm _ _).count_eq, ← ways_eq hends hnot]
  exact count_preorder_root g from' to' (Nat.le_of_succ_le_succ hshort)

/-! ## Ancestors -/

/-- A look at one source: itself it is not asked about, nor if it has been seen. -/
def look (n : String) (s : Std.ExtTreeSet String × List String) (e : String × Fields) :
    Std.ExtTreeSet String × List String :=
  if e.1 == n || s.1.contains e.1 then s
  else if e.2.toList.any fun f => f.2.contains n then (s.1.insert e.1, e.1 :: s.2)
  else s

/-- The turns of `ancestors`. -/
def ancestorLoop (entries : List (String × Fields)) :
    ℕ → Std.ExtTreeSet String → List String → Option (Std.ExtTreeSet String)
  | _, seen, [] => some seen
  | 0, _, _ :: _ => none
  | fuel + 1, seen, n :: stack =>
    ancestorLoop entries fuel (entries.foldl (look n) (seen, stack)).1
      (entries.foldl (look n) (seen, stack)).2

/-- Every doc that (transitively) points at `name`; `entries` are those of the hash map, in the
    order in which it is gone through. -/
def ancestors (entries : List (String × Fields)) (name : String) (fuel : ℕ) :
    Option (List String) :=
  (ancestorLoop entries fuel ∅ [name]).map fun seen => seen.toList.mergeSort (· ≤ ·)

/-- An order in which the hash map may be gone through. -/
structure HashOrder (g : EdgeMap) where
  entries : List (String × Fields)
  perm : entries.Perm g.toList

/-- The source is another node, and one of its fields has the target. -/
def Leads (e : String × Fields) (n : String) : Prop := e.1 ≠ n ∧ ∃ f ∈ e.2.toList, n ∈ f.2

theorem leads_iff {g : EdgeMap} (h : HashOrder g) {x n : String} :
    (∃ e ∈ h.entries, e.1 = x ∧ Leads e n) ↔ x ≠ n ∧ Edge g x n := by
  unfold Edge outgoing
  constructor
  · rintro ⟨⟨x, m⟩, hin, rfl, hne, ⟨field, s⟩, hfield, hn⟩
    refine ⟨hne, field, ?_⟩
    rw [Lib.mem_toList.mp (h.perm.mem_iff.mp hin), Option.bind_some, Lib.mem_toList.mp hfield]
    exact Std.ExtTreeSet.mem_toList.mpr hn
  · rintro ⟨hne, field, hn⟩
    cases hm : g[x]? with
    | none =>
      rw [hm] at hn
      cases hn
    | some m =>
      rw [hm, Option.bind_some] at hn
      cases hs : m[field]? with
      | none =>
        rw [hs] at hn
        cases hn
      | some s =>
        rw [hs] at hn
        exact ⟨(x, m), h.perm.mem_iff.mpr (Lib.mem_toList.mpr hm), rfl, hne, (field, s),
          Lib.mem_toList.mpr hs, Std.ExtTreeSet.mem_toList.mp hn⟩

/-- What a look does: nothing, or one source is marked and goes on the stack. -/
theorem look_cases (n : String) (s : Std.ExtTreeSet String × List String) (e : String × Fields) :
    (look n s e = s ∧ (Leads e n → e.1 ∈ s.1)) ∨
    (look n s e = (s.1.insert e.1, e.1 :: s.2) ∧ Leads e n ∧ e.1 ∉ s.1) := by
  unfold look
  by_cases hskip : (e.1 == n || s.1.contains e.1) = true
  · refine Or.inl ⟨if_pos hskip, fun hleads => ?_⟩
    rw [Bool.or_eq_true, beq_iff_eq] at hskip
    exact hskip.resolve_left hleads.1
  · rw [if_neg hskip]
    rw [Bool.or_eq_true, beq_iff_eq, not_or] at hskip
    by_cases hany : (e.2.toList.any fun f => f.2.contains n) = true
    · exact Or.inr ⟨if_pos hany, ⟨hskip.1, List.any_eq_true.mp hany⟩, hskip.2⟩
    · exact Or.inl ⟨if_neg hany, fun hleads => absurd (List.any_eq_true.mpr hleads.2) hany⟩

/-- What a round of looks does. -/
structure Looked (l : List (String × Fields)) (n : String)
    (s s' : Std.ExtTreeSet String × List String) : Prop where
  seen : ∀ x, x ∈ s'.1 ↔ x ∈ s.1 ∨ ∃ e ∈ l, e.1 = x ∧ Leads e n
  stack : ∀ x, x ∈ s'.2 ↔ x ∈ s.2 ∨ (∃ e ∈ l, e.1 = x ∧ Leads e n) ∧ x ∉ s.1
  size : s'.2.length + s.1.size = s.2.length + s'.1.size

theorem looked (n : String) (l : List (String × Fields)) :
    ∀ s : Std.ExtTreeSet String × List String, Looked l n s (l.foldl (look n) s) := by
  induction l with
  | nil => exact fun s => ⟨by simp, by simp, rfl⟩
  | cons e l ih =>
    intro s
    rw [List.foldl_cons]
    obtain ⟨hseen, hstack, hsize⟩ := ih (look n s e)
    generalize l.foldl (look n) (look n s e) = s' at hseen hstack hsize ⊢
    rcases look_cases n s e with ⟨hsame, hold⟩ | ⟨hnew, hleads, hfresh⟩
    · rw [hsame] at hseen hstack hsize
      refine ⟨fun x => ?_, fun x => ?_, hsize⟩
      · rw [hseen x, List.exists_mem_cons_iff]
        constructor
        · exact fun h => h.imp_right Or.inr
        · rintro (h | ⟨rfl, h⟩ | h)
          · exact Or.inl h
          · exact Or.inl (hold h)
          · exact Or.inr h
      · rw [hstack x, List.exists_mem_cons_iff]
        constructor
        · exact fun h => h.imp_right fun h => ⟨Or.inr h.1, h.2⟩
        · rintro (h | ⟨⟨rfl, h⟩ | h, hx⟩)
          · exact Or.inl h
          · exact absurd (hold h) hx
          · exact Or.inr ⟨h, hx⟩
    · rw [hnew] at hseen hstack hsize
      refine ⟨fun x => ?_, fun x => ?_, ?_⟩
      · rw [hseen x, List.exists_mem_cons_iff, Std.ExtTreeSet.mem_insert,
          Std.LawfulEqCmp.compare_eq_iff_eq]
        tauto
      · rw [hstack x, List.exists_mem_cons_iff, List.mem_cons, Std.ExtTreeSet.mem_insert,
          Std.LawfulEqCmp.compare_eq_iff_eq]
        by_cases hx : e.1 = x
        · subst hx
          tauto
        · tauto
      · have hinsert : (s.1.insert e.1).size = s.1.size + 1 := by
          exact Std.ExtTreeSet.size_insert.trans (if_neg hfresh)
        rw [hinsert, List.length_cons] at hsize
        omega

/-- No more can be seen than there are sources. -/
theorem size_seen_le {g : EdgeMap} {seen : Std.ExtTreeSet String} (h : ∀ x ∈ seen, x ∈ g) :
    seen.size ≤ g.size := by
  have hnodup : seen.toList.Nodup :=
    Std.ExtTreeSet.distinct_toList.imp fun h heq => h (Std.compare_eq_iff_eq.mpr heq)
  have hsub : seen.toList ⊆ g.toList.map Prod.fst := by
    intro x hx
    obtain ⟨m, hm⟩ := Option.isSome_iff_exists.mp
      (Std.ExtTreeMap.mem_iff_isSome_getElem?.mp (h x (Std.ExtTreeSet.mem_toList.mp hx)))
    exact List.mem_map.mpr ⟨(x, m), Lib.mem_toList.mpr hm, rfl⟩
  rw [← Std.ExtTreeSet.length_toList, ← Std.ExtTreeMap.length_toList, ← List.length_map Prod.fst]
  exact (hnodup.subperm hsub).length_le

/-- An edge from another node. -/
def EdgeFromOther (g : EdgeMap) (a b : String) : Prop := a ≠ b ∧ Edge g a b

/-- **The loop ends, and goes on being a search until it does**: each turn takes one node off the
    stack, and each node that goes on it is marked. -/
theorem exists_ancestorLoop {g : EdgeMap} (h : HashOrder g) {name : String} {fuel : ℕ}
    {seen : Std.ExtTreeSet String} {stack : List String}
    (hsearch : Lib.Search (EdgeFromOther g) name (· ∈ seen) stack)
    (hsources : ∀ x ∈ seen, x ∈ g) (hfuel : stack.length + g.size ≤ fuel + seen.size) :
    ∃ seen', ancestorLoop h.entries fuel seen stack = some seen' ∧
      Lib.Search (EdgeFromOther g) name (· ∈ seen') [] := by
  induction fuel generalizing seen stack with
  | zero =>
    cases stack with
    | nil => exact ⟨seen, rfl, hsearch⟩
    | cons n stack =>
      have hle := size_seen_le hsources
      rw [List.length_cons] at hfuel
      omega
  | succ fuel ih =>
    cases stack with
    | nil => exact ⟨seen, rfl, hsearch⟩
    | cons n stack =>
      obtain ⟨hseen, hstack, hsize⟩ := looked n h.entries (seen, stack)
      simp only [leads_iff h] at hseen hstack
      unfold ancestorLoop
      generalize h.entries.foldl (look n) (seen, stack) = s' at hseen hstack hsize ⊢
      refine ih (hsearch.step hseen hstack) (fun x hx => ?_) ?_
      · rcases (hseen x).mp hx with hold | ⟨-, field, hin⟩
        · exact hsources x hold
        · refine Std.ExtTreeMap.mem_iff_isSome_getElem?.mpr ?_
          unfold outgoing at hin
          cases hm : g[x]? with
          | none =>
            rw [hm] at hin
            cases hin
          | some m => rfl
      · rw [List.length_cons] at hfuel
        dsimp only at hsize
        omega

/-- **`ancestors` is reachability backwards**: sorted, without repeats, and it always ends.  The
    node itself is among its ancestors exactly when it is on a cycle with another one. -/
theorem ancestors_reachable (g : EdgeMap) (h : HashOrder g) (name : String) :
    ∃ fuel₀, ∀ fuel ≥ fuel₀, ∃ l, ancestors h.entries name fuel = some l ∧
      l.Pairwise (· ≤ ·) ∧ l.Nodup ∧
      (∀ x, x ≠ name → (x ∈ l ↔ Relation.TransGen (Edge g) x name)) ∧
      (name ∈ l ↔ Lib.OnCycle (Edge g) name) := by
  refine ⟨1 + g.size, fun fuel hfuel => ?_⟩
  have hbegin : Lib.Search (EdgeFromOther g) name (· ∈ (∅ : Std.ExtTreeSet String)) [name] := by
    have hroot : Lib.Search (EdgeFromOther g) name (fun _ => False) [name] := Lib.Search.begin
    simpa using hroot
  obtain ⟨seen, hloop, hsearch⟩ : ∃ seen, ancestorLoop h.entries fuel ∅ [name] = some seen ∧
      Lib.Search (EdgeFromOther g) name (· ∈ seen) [] :=
    exists_ancestorLoop h hbegin (by simp) (by simpa)
  have hmem : ∀ x, x ∈ seen.toList.mergeSort (· ≤ ·) ↔
      Relation.TransGen (EdgeFromOther g) x name := fun x =>
    List.mem_mergeSort.trans (Std.ExtTreeSet.mem_toList.trans (hsearch.finish x))
  have hnodup : seen.toList.Nodup :=
    Std.ExtTreeSet.distinct_toList.imp fun h heq => h (Std.compare_eq_iff_eq.mpr heq)
  refine ⟨seen.toList.mergeSort (· ≤ ·), ?_, ?_, ?_, fun x hne => ?_, ?_⟩
  · unfold ancestors
    rw [hloop]
    rfl
  · have hsorted : (seen.toList.mergeSort (· ≤ ·)).Pairwise fun a b : String =>
        decide (a ≤ b) = true := List.pairwise_mergeSort
      (fun a b c hab hbc => by simpa using Std.le_trans (by simpa using hab) (by simpa using hbc))
      (fun a b => by simpa using Std.le_total) seen.toList
    exact hsorted.imp fun h => of_decide_eq_true h
  · exact (List.mergeSort_perm _ _).nodup_iff.mpr hnodup
  · rw [hmem x]
    exact ⟨Relation.TransGen.mono (fun _ _ h => h.2) x name, fun h => Lib.transGen_ne h hne⟩
  · rw [hmem name]
    exact Lib.transGen_ne_self_iff

end PhReactor.RelationshipIndex
