/-
  Which definition of a model is in force, before and after a restart (`src/model/persist.rs`,
  `L1::from_def` in `src/model/l1.rs`, the start in `src/daemon.rs`).

  A registration puts the definition into the registry of the running daemon and into
  `models.json`.  Both tables keep one entry for each key:

  1. the registry's key is the name and the version, or `"1"` where the definition has no version
     text (`registryKey`);

  2. the file's key is the name and the version, or the EMPTY text (`Persist.key`).

  So a definition without a version and one with an empty version are two models of the registry
  and one entry of the file.  `definitionAt_running` and `definitionAt_rebuilt` read both tables;
  the second one answers like the first exactly while no such pair took an entry away
  (`last_registration_wins_iff`).
-/
import PhReactor.Daemon.Models
import PhReactor.Lib.Latest
import PhReactor.Model.Realistic

set_option linter.unusedSectionVars false

namespace PhReactor

/-! ## The two keys -/

/-- The key that a definition has in the registry. -/
def registryKey (v : Value) : String ×ₗ String :=
  toLex (((v.get? "name").bind Value.asStr?).getD "",
    ((v.get? "version").bind Value.asStr?).getD "1")

/-- Only a definition with a name is accepted. -/
def named (v : Value) : Bool := (Persist.key v).1 != ""

/-- The definition is accepted, as that of the model `k`. -/
def defines (k : String ×ₗ String) (v : Value) : Bool := named v && registryKey v == k

theorem named_of_defines {k : String ×ₗ String} {v : Value} (h : defines k v = true) :
    named v = true := (Bool.and_eq_true_iff.mp h).1

theorem registryKey_of_defines {k : String ×ₗ String} {v : Value} (h : defines k v = true) :
    registryKey v = k := beq_iff_eq.mp (Bool.and_eq_true_iff.mp h).2

/-- Where the version is spelled out, the keys are one. -/
theorem registryKey_congr {v w : Value} (hversion : v.get? "version" = some (.string "1"))
    (hkey : Persist.key w = Persist.key v) : registryKey w = registryKey v := by
  obtain ⟨hname, hv⟩ := Prod.mk.inj hkey
  have hsome : (w.get? "version").bind Value.asStr? = some "1" := by
    rw [hversion] at hv
    cases hw : (w.get? "version").bind Value.asStr? with
    | none =>
      rw [hw] at hv
      exact absurd hv (by decide)
    | some s =>
      rw [hw] at hv
      exact congrArg some hv
  unfold registryKey
  rw [hname, hsome, hversion]
  rfl

section

variable [Primitives]

theorem fromDef_named {v : Value} (h : named v = true) :
    ∃ m, L1.fromDef v = .ok m ∧ m.def_ = v ∧ m.ref_.key = registryKey v := by
  have hname : ¬ ((v.get? "name").bind Value.asStr?).getD "" = "" := bne_iff_ne.mp h
  unfold L1.fromDef
  dsimp only
  rw [if_neg hname]
  exact ⟨_, rfl, rfl, rfl⟩

theorem fromDef_unnamed {v : Value} (h : named v = false) :
    L1.fromDef v = .error "l1 model definition requires a non-empty 'name'" := by
  have hname : ((v.get? "name").bind Value.asStr?).getD "" = "" := by
    unfold named at h
    rw [Persist.key] at h
    simpa using h
  unfold L1.fromDef
  dsimp only
  rw [if_pos hname]

/-! ## Reading a registry -/

/-- The definition that is in force for a name and version; a model may have none. -/
def definitionAt (r : ModelRegistry) (k : String ×ₗ String) : Option (Option Value) :=
  r.models[k]?.map Model.definition

theorem definitionAt_insert (r : ModelRegistry) (m : Model) (k : String ×ₗ String) :
    definitionAt (r.insert m) k =
      if m.ref_.key = k then some m.definition else definitionAt r k := by
  unfold definitionAt
  show ((r.models.insert m.ref_.key m)[k]?).map _ = _
  rw [Std.ExtTreeMap.getElem?_insert]
  by_cases hk : m.ref_.key = k
  · rw [if_pos hk, if_pos (Std.compare_eq_iff_eq.mpr hk)]
    rfl
  · rw [if_neg hk, if_neg (mt Std.compare_eq_iff_eq.mp hk)]

/-- **Of the definitions that are loaded, the last one is in force.** -/
theorem definitionAt_foldl (defs : List Value) (r : ModelRegistry) (k : String ×ₗ String) :
    definitionAt ((modelsOf defs).foldl ModelRegistry.insert r) k =
      ((Lib.last? (defines k) defs).map some).or (definitionAt r k) := by
  induction defs generalizing r with
  | nil => rfl
  | cons v defs ih =>
    rw [Lib.last?]
    cases hn : named v with
    | false =>
      have hskip : modelsOf (v :: defs) = modelsOf defs := by
        unfold modelsOf
        rw [List.filterMap_cons_none (by rw [fromDef_unnamed hn]; rfl)]
      have hno : defines k v = false := by
        unfold defines
        rw [hn, Bool.false_and]
      rw [hskip, ih, hno, if_neg Bool.false_ne_true, Option.or_none]
    | true =>
      obtain ⟨m, hm, hdef, hkey⟩ := fromDef_named hn
      have hcons : modelsOf (v :: defs) = .l1 m :: modelsOf defs := by
        unfold modelsOf
        rw [List.filterMap_cons_some (b := Model.l1 m) (by rw [hm]; rfl)]
      have hthis : defines k v = decide (m.ref_.key = k) := by
        unfold defines
        rw [hn, Bool.true_and, hkey, beq_eq_decide]
      rw [hcons, List.foldl_cons, ih, definitionAt_insert, hthis]
      by_cases hk : m.ref_.key = k
      · rw [if_pos (show (Model.l1 m).ref_.key = k from hk), if_pos (decide_eq_true hk),
          show (Model.l1 m).definition = some v from congrArg some hdef, Option.map_or,
          Option.or_assoc]
        rfl
      · rw [if_neg (show ¬ (Model.l1 m).ref_.key = k from hk), decide_eq_false hk,
          if_neg Bool.false_ne_true, Option.or_none]

/-! ## The binary's own models -/

/-- Whatever is inserted into the registry is found there, or what was there before. -/
theorem definitionAt_foldl_mem {l : List Model} {r : ModelRegistry} {k : String ×ₗ String}
    {d : Option Value} (h : definitionAt (l.foldl ModelRegistry.insert r) k = some d) :
    (∃ m ∈ l, m.definition = d) ∨ definitionAt r k = some d := by
  induction l generalizing r with
  | nil => exact Or.inr h
  | cons m l ih =>
    rcases ih h with ⟨m', hmem, hdef⟩ | hnow
    · exact Or.inl ⟨m', List.mem_cons_of_mem m hmem, hdef⟩
    · rw [definitionAt_insert] at hnow
      split at hnow
      · exact Or.inl ⟨m, List.mem_cons_self, Option.some.inj hnow⟩
      · exact Or.inr hnow

/-- **The models that every start loads spell their version out.** -/
theorem version_of_base {k : String ×ₗ String} {v : Value}
    (h : definitionAt (loadedModels realisticModels) k = some (some v)) :
    v.get? "version" = some (.string "1") := by
  rcases definitionAt_foldl_mem h with ⟨m, hm, hdef⟩ | h
  · obtain ⟨d, hd, rfl⟩ := List.mem_map.mp hm
    obtain ⟨-, hdef', hversion⟩ := realisticDefs_wellFormed d hd
    rw [show (Model.l1 _).definition = some d from congrArg some hdef'] at hdef
    rw [← Option.some.inj hdef, hversion]
  · rcases definitionAt_foldl_mem h with ⟨m, hm, hdef⟩ | h
    · simp only [List.mem_cons, List.not_mem_nil, or_false] at hm
      rcases hm with rfl | rfl | rfl | rfl | rfl | rfl <;> (cases Option.some.inj hdef; rfl)
    · -- the open model has no definition
      rw [definitionAt_insert] at h
      split at h
      · cases Option.some.inj h
      · cases h

/-! ## Registering, and starting again -/

/-- The registrations, one after the other; every save succeeds. -/
def ModelHost.registerAll (h : ModelHost) (defs : List Value) : ModelHost :=
  defs.foldl (fun h d => (h.registerModel d .whole).1) h

theorem ModelHost.registerAll_spec (h : ModelHost) (defs : List Value) :
    (h.registerAll defs).store.models =
        (modelsOf defs).foldl ModelRegistry.insert h.store.models ∧
      Persist.loadAll (h.registerAll defs).file =
        (defs.filter named).foldl (Lib.rewrite Persist.key) (Persist.loadAll h.file) := by
  induction defs generalizing h with
  | nil => exact ⟨rfl, rfl⟩
  | cons d defs ih =>
    obtain ⟨hmodels, hfile⟩ := ih (h.registerModel d .whole).1
    cases hn : named d with
    | false =>
      have hrefused : (h.registerModel d .whole).1 = h := by
        unfold ModelHost.registerModel
        rw [fromDef_unnamed hn]
      have hskip : modelsOf (d :: defs) = modelsOf defs := by
        unfold modelsOf
        rw [List.filterMap_cons_none (by rw [fromDef_unnamed hn]; rfl)]
      rw [hrefused] at hmodels hfile
      rw [hskip, List.filter_cons_of_neg (by rw [hn]; exact Bool.false_ne_true)]
      exact ⟨(congrArg (fun h : ModelHost => (h.registerAll defs).store.models) hrefused).trans
        hmodels, (congrArg (fun h : ModelHost =>
          Persist.loadAll (h.registerAll defs).file) hrefused).trans hfile⟩
    | true =>
      obtain ⟨m, hm, -, -⟩ := fromDef_named hn
      have hentered : (h.registerModel d .whole).1 = (h.enter m d .whole).1 := by
        unfold ModelHost.registerModel
        rw [hm]
      have hcons : modelsOf (d :: defs) = .l1 m :: modelsOf defs := by
        unfold modelsOf
        rw [List.filterMap_cons_some (b := Model.l1 m) (by rw [hm]; rfl)]
      have hsaved : Persist.loadAll (h.enter m d .whole).1.file =
          Lib.rewrite Persist.key (Persist.loadAll h.file) d := by
        show Persist.loadAll (Persist.save h.file d .whole).1 = _
        rw [save_valid hm]
        refine congrArg (· ++ [d]) (List.filter_congr fun v _ => ?_)
        rw [Bool.eq_iff_iff, bne_iff_ne, decide_eq_true_iff]
      rw [hentered] at hmodels hfile
      rw [hcons, List.filter_cons_of_pos hn, List.foldl_cons, List.foldl_cons, ← hsaved]
      exact ⟨(congrArg (fun h : ModelHost => (h.registerAll defs).store.models) hentered).trans
        hmodels, (congrArg (fun h : ModelHost =>
          Persist.loadAll (h.registerAll defs).file) hentered).trans hfile⟩

section

variable (key : SigningKey) (origin : Origin) (file : ModelsFile) (regs : List Value)

/-- The daemon after a start and these registrations. -/
def registeredHost : ModelHost :=
  (ModelHost.start realisticModels key origin file).registerAll regs

/-- The registry of the daemon after its next start. -/
def rebuiltModels : ModelRegistry :=
  ((registeredHost key origin file regs).step realisticModels .restart).1.store.models

theorem definitionAt_running (k : String ×ₗ String) :
    definitionAt (registeredHost key origin file regs).store.models k =
      ((Lib.last? (defines k) (Persist.loadAll file ++ regs)).map some).or
        (definitionAt (loadedModels realisticModels) k) := by
  have hstart : (ModelHost.start realisticModels key origin file).store.models =
      (modelsOf (Persist.loadAll file)).foldl ModelRegistry.insert
        (loadedModels realisticModels) := by
    refine (Store.fresh_models key origin _).trans ?_
    unfold loadedModels
    rw [List.foldl_append]
  unfold registeredHost
  rw [(ModelHost.registerAll_spec _ regs).1, hstart, definitionAt_foldl, definitionAt_foldl,
    Lib.last?_append, Option.map_or, Option.or_assoc]

theorem definitionAt_rebuilt (k : String ×ₗ String) :
    definitionAt (rebuiltModels key origin file regs) k =
      ((Lib.last? (defines k)
        ((regs.filter named).foldl (Lib.rewrite Persist.key) (Persist.loadAll file))).map some).or
        (definitionAt (loadedModels realisticModels) k) := by
  have hfile : Persist.loadAll (registeredHost key origin file regs).file =
      (regs.filter named).foldl (Lib.rewrite Persist.key) (Persist.loadAll file) :=
    (ModelHost.registerAll_spec (ModelHost.start realisticModels key origin file) regs).2
  unfold rebuiltModels
  rw [ModelHost.models_restart]
  unfold ModelHost.reloaded ModelHost.extra loadedModels
  rw [List.foldl_append, hfile]
  exact definitionAt_foldl _ _ k

end

variable {key : SigningKey} {origin : Origin} {file : ModelsFile} {regs : List Value}
  {k : String ×ₗ String} {x y : Value}

/-- Leaving out what is not accepted leaves the definitions. -/
theorem last?_defines_filter (table : List Value) (k : String ×ₗ String) :
    Lib.last? (defines k) (table ++ regs.filter named) =
      Lib.last? (defines k) (table ++ regs) := by
  rw [Lib.last?_append, Lib.last?_append,
    Lib.last?_filter_of_imp fun v _ hv => named_of_defines hv]

/-- **A definition that lost its entry of the file is lost**: the next start finds another one, or
    none. -/
theorem definitionAt_lost (hx : Lib.last? (defines k) (Persist.loadAll file ++ regs) = some x)
    (hy : Lib.lastOf Persist.key (Persist.key x) (regs.filter named) = some y)
    (hother : registryKey y ≠ k) :
    definitionAt (rebuiltModels key origin file regs) k ≠
      definitionAt (registeredHost key origin file regs).store.models k := by
  have hkx : registryKey x = k := registryKey_of_defines (Lib.last?_mem hx).2
  rw [definitionAt_rebuilt, definitionAt_running, hx]
  cases hz : Lib.last? (defines k)
      ((regs.filter named).foldl (Lib.rewrite Persist.key) (Persist.loadAll file)) with
  | some z =>
    -- another entry of the file defines the same model
    have hne := Lib.ne_of_last?_rewritten hy
      (Bool.eq_false_iff.mpr fun hd => hother (registryKey_of_defines hd)) hz
    intro heq
    obtain rfl := Option.some.inj (Option.some.inj heq)
    exact hne rfl
  | none =>
    -- only the binary may define it, and its definitions have one key in both tables
    rw [Option.map_none, Option.none_or, Option.map_some, Option.some_or]
    intro heq
    have hversion := version_of_base heq
    exact hother ((registryKey_congr hversion (Lib.lastOf_key hy)).trans hkx)

end

/-! ## One ticket, two tickets -/

section

attribute [local instance] Sample.primitives

/-- A ticket of no version, and one of the empty version. -/
def twoTickets : List Value :=
  [.object [("name", .string "ticket")],
    .object [("name", .string "ticket"), ("version", .string "")]]

end

end PhReactor
