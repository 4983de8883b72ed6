/-
  The models a store knows (`src/model/mod.rs`, `src/model/open.rs`).

  `Model` is a trait in the source with exactly two implementations, `open@1` and the declarative
  interpreter; here it is the type of their values, with the trait's methods as functions on it.
  `ModelRegistry` keys them by `(name, version)` and refuses a lookup whose pinned hash is not the
  loaded model's.
-/
import PhReactor.Model.L1

namespace PhReactor

/-- A document model: the open-field model, or an interpreted definition. -/
inductive Model where
  | open
  | l1 (m : L1)

/-- The default open model reference (`open@1`). -/
def openRef : ModelRef := ModelRef.new "open" "1"

/-! ## `open@1` -/

namespace Open

def validatePayload (kind : String) (payload : Value) : Except Reject Unit :=
  if kind = "create" ∨ kind = "set" then
    match (payload.get? "field").bind Value.asStr? with
    | none => .error (.badPayload "requires payload.field (string)")
    | some field =>
      if field = "" then .error (.badPayload "payload.field must be non-empty") else .ok ()
  else if kind = "delete" then .ok ()
  else .error (.unknownKind kind)

/-- One op, whatever the kind: the payload's `field` and `value` decide what it does. -/
def op (action : Action) : Op where
  docId := action.docId
  key := (action.payload.get? "field").bind Value.asStr?
  value := action.payload.get? "value"
  ts := action.ts
  clock := action.clock
  origin := action.origin
  sig := action.sig

def reduce (_state : Doc) (action : Action) : Except Reject (List Op) := .ok [op action]

end Open

/-! ## The trait's methods -/

namespace Model

/-- The model's reference (`name@version[#hash]`). -/
def ref_ : Model → ModelRef
  | .open => openRef
  | .l1 m => m.ref_

def validatePayload : Model → String → Value → Except Reject Unit
  | .open => Open.validatePayload
  | .l1 m => m.validatePayload

def reduce : Model → Doc → Action → Except Reject (List Op)
  | .open => Open.reduce
  | .l1 m => m.reduce

def authorize : Model → Doc → Action → Except Reject Unit
  | .open => fun _ _ => .ok ()
  | .l1 m => m.authorize

def quorum : Model → String → Option QuorumSpec
  | .open => fun _ => none
  | .l1 m => m.quorum

def requiresSpaceMember : Model → String → Option String
  | .open => fun _ => none
  | .l1 m => m.requiresSpaceMember

/-- The model's canonical definition, if it has a distributable form. -/
def definition : Model → Option Value
  | .open => none
  | .l1 m => some m.def_

def checkPrecondition [Primitives] : Model → Doc → Action → Except Reject Unit
  | .open => fun _ _ => .ok ()
  | .l1 m => m.checkPrecondition

theorem authorize_of_fields_empty (m : Model) {state : Doc} (h : state.fields = ∅)
    (action : Action) : m.authorize state action = .ok () := by
  cases m with
  | «open» => rfl
  | l1 m => exact m.authorize_of_fields_empty h action

theorem reduce_shape (m : Model) (state state' : Doc) (action : Action) :
    (∃ r, m.reduce state action = .error r ∧ m.reduce state' action = .error r) ∨
      ∃ ops ops', m.reduce state action = .ok ops ∧ m.reduce state' action = .ok ops' ∧
        List.Forall₂ OpShape ops ops' := by
  cases m with
  | «open» => exact Or.inr ⟨_, _, rfl, rfl, .cons ⟨rfl, rfl⟩ .nil⟩
  | l1 m => exact m.reduce_shape state state' action

end Model

/-! ## The registry -/

/-- Loaded models, keyed by `(name, version)`. -/
structure ModelRegistry where
  models : Std.ExtTreeMap (String ×ₗ String) Model

namespace ModelRegistry

/-- Register a model (replacing any prior same-name/version entry). -/
def insert (r : ModelRegistry) (m : Model) : ModelRegistry :=
  ⟨r.models.insert (toLex (m.ref_.name, m.ref_.version)) m⟩

/-- Look up a model by reference.  When the ref pins a hash, the loaded model's hash must match. -/
def find (r : ModelRegistry) (ref : ModelRef) : Option Model :=
  match r.models[toLex (ref.name, ref.version)]? with
  | none => none
  | some m =>
    match ref.hash with
    | none => some m
    | some want => if m.ref_.hash = some want then some m else none

/-- The model's definition by reference, if loaded and it has one. -/
def definition (r : ModelRegistry) (ref : ModelRef) : Option Value :=
  (r.find ref).bind Model.definition

instance : Std.LawfulEqOrd (String ×ₗ String) := ⟨fun h => compare_eq_iff_eq.mp h⟩

/-- A registration is seen by exactly the references of its name and version, and by those only
    when they pin no hash or its own. -/
theorem find_insert (r : ModelRegistry) (m : Model) (ref : ModelRef) :
    (r.insert m).find ref =
      if m.ref_.name = ref.name ∧ m.ref_.version = ref.version then
        if ref.hash = none ∨ m.ref_.hash = ref.hash then some m else none
      else r.find ref := by
  unfold find insert
  dsimp only
  rw [Std.ExtTreeMap.getElem?_insert]
  by_cases h : m.ref_.name = ref.name ∧ m.ref_.version = ref.version
  · rw [if_pos h, h.1, h.2, if_pos Std.compare_self]
    cases hh : ref.hash <;> simp
  · rw [if_neg h, if_neg]
    intro hc
    exact h (Prod.mk.inj (toLex.injective (Std.compare_eq_iff_eq.mp hc)))

end ModelRegistry

end PhReactor
