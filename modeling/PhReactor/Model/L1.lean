/-
  The declarative Level-1 interpreter (`src/model/l1.rs`).

  One fixed engine interprets a JSON definition: typed payloads, write templates
  (`set` / `append` / `remove`), a precondition DSL and per-reducer authorization rules.  `quorum`
  and `space-member` preconditions are only DECLARED here; the store checks them, since they need
  another document's state.

  What the fold of a log relies on is how little of a reduction depends on the state: the keys an
  action writes, whether the reduction fails at all, and whether a written value is a string are
  the same in every state (`L1.reduce_shape`) — only the contents of appended and filtered arrays
  differ.
-/
import PhReactor.Action

namespace PhReactor

/-- Why a model rejected an action or a state. -/
inductive Reject where
  | unknownKind (kind : String)
  | badPayload (msg : String)
  | precondition (msg : String)
  | badState (msg : String)
  deriving DecidableEq

/-- A one-line human description (for quarantine and `doc verify`). -/
def Reject.describe : Reject → String
  | .unknownKind k => "unknown kind '" ++ k ++ "'"
  | .badPayload m => "bad payload: " ++ m
  | .precondition m => "precondition failed: " ++ m
  | .badState m => "state violation: " ++ m

/-- A quorum requirement declared by a reducer. -/
structure QuorumSpec where
  /-- The group document: a doc name, or `$self` for the action's own doc. -/
  group : String
  min : ℕ
  field : String
  deriving DecidableEq

/-! ## Field helpers -/

/-- A live field's value; `null` when the field is absent or a tombstone. -/
def currentValue (state : Doc) (field : String) : Value :=
  match state.fields[field]? with
  | some f => if f.deleted then .null else f.value
  | none => .null

def currentArray (state : Doc) (field : String) : List Value :=
  (currentValue state field).asArray?.getD []

def isPresent (state : Doc) (field : String) : Bool :=
  match state.fields[field]? with
  | some f => !f.deleted
  | none => false

def inList (state : Doc) (field : String) (origin : Origin) : Bool :=
  (currentArray state field).any fun v => v.asStr? == some origin

/-- `field-is` / `field-not` carry `{ field, value }`; read the field name. -/
def fieldName (arg : Value) (key : String) : Except Reject String :=
  match (arg.get? "field").bind Value.asStr? with
  | some f => .ok f
  | none => .error (.precondition ("'" ++ key ++ "' requires a 'field' string"))

/-- Precondition forms whose value is a plain string (the field / name). -/
def stringArg (arg : Value) (key : String) : Except Reject String :=
  match arg.asStr? with
  | some s => .ok s
  | none => .error (.precondition ("'" ++ key ++ "' requires a string argument"))

/-- `Object::contains_key`, false on anything but an object. -/
def hasKey (p : Value) (key : String) : Bool :=
  match p.asObject? with
  | some o => (o.lookup key).isSome
  | none => false

def isSpaceMember (p : Value) : Bool := hasKey p "space-member"

def isQuorum (p : Value) : Bool := hasKey p "quorum"

def parseQuorum (p : Value) : Option QuorumSpec := do
  let q ← p.get? "quorum"
  let group ← (← q.get? "group").asStr?
  let min ← (← q.get? "min").asU64?
  let field := ((q.get? "field").bind Value.asStr?).getD "members"
  some { group, min, field }

/-- Does a value have a declared type; an unknown type string is permissive. -/
def typeMatches (v : Value) (want : String) : Bool :=
  match want with
  | "string" => v.isString
  | "number" => v.isNumber
  | "boolean" => v.isBoolean
  | "object" => v.isObject
  | "array" => v.isArray
  | "string[]" => (v.asArray?.map fun a => a.all Value.isString).getD false
  | "number[]" => (v.asArray?.map fun a => a.all Value.isNumber).getD false
  | "boolean[]" => (v.asArray?.map fun a => a.all Value.isBoolean).getD false
  | _ => true

/-! ## The interpreter -/

/-- The interpreter: its reference, the definition it was built from and the parts it reads. -/
structure L1 where
  ref_ : ModelRef
  def_ : Value
  fields : Value
  reducers : Value
  checks : Value
  auth : Value

/-- `"$payload."`, then the rest of the template. -/
def payloadField? (s : String) : Option String :=
  if "$payload.".toList.isPrefixOf s.toList then
    some (String.ofList (s.toList.drop "$payload.".length))
  else none

/-- Evaluate a template: `$actor`, `$ts`, `$payload.<f>`, or a literal. -/
def evalTemplate (action : Action) (tmpl : Value) : Value :=
  match tmpl with
  | .string s =>
    if s = "$actor" then .string action.origin
    else if s = "$ts" then .number (.posInt action.ts)
    else
      match payloadField? s with
      | some f => (action.payload.get? f).getD .null
      | none => .string s
  | other => other

/-- Compute the new value a write produces against the current state. -/
def writeValue (state : Doc) (action : Action) (field : String) (w : Value) :
    Except Reject Value :=
  match w.asObject?.bind List.head? with
  | none =>
    .error (.badState ("field '" ++ field ++ "': write must be exactly one of set/append/remove"))
  | some (key, tmpl) =>
    if key = "set" then .ok (evalTemplate action tmpl)
    else if key = "append" then
      .ok (.array (currentArray state field ++ [evalTemplate action tmpl]))
    else if key = "remove" then
      let item := evalTemplate action tmpl
      .ok (.array ((currentArray state field).filter fun v => v != item))
    else
      .error (.badState ("field '" ++ field ++ "': write must be exactly one of set/append/remove"))

namespace L1

/-- The reducer definition for `kind`, if the model declares one. -/
def reducer (m : L1) (kind : String) : Option Value := m.reducers.get? kind

/-- The reducer's precondition list (empty if none). -/
def preList (m : L1) (kind : String) : List Value :=
  (((m.reducer kind).bind (Value.get? · "pre")).bind Value.asArray?).getD []

/-- Validate that `kind` is a known reducer and that `payload` matches its payload schema. -/
def validatePayload (m : L1) (kind : String) (payload : Value) : Except Reject Unit :=
  match m.reducer kind with
  | none => .error (.unknownKind kind)
  | some r =>
    match (r.get? "payload").bind Value.asObject? with
    | none => .ok ()
    | some schema =>
      schema.forM fun (f, t) =>
        let want := t.asStr?.getD ""
        match payload.get? f with
        | none => .error (.badPayload ("missing payload." ++ f ++ " (want " ++ want ++ ")"))
        | some got =>
          if typeMatches got want then .ok ()
          else .error (.badPayload ("payload." ++ f ++ " must be " ++ want))

/-- The op a reducer's write of `value` to `field` becomes. -/
def writeOp (action : Action) (field : String) (value : Value) : Op where
  docId := action.docId
  key := some field
  value := some value
  ts := action.ts
  clock := action.clock
  origin := action.origin
  sig := action.sig

/-- Reduce the action into the field writes it applies. -/
def reduce (m : L1) (state : Doc) (action : Action) : Except Reject (List Op) :=
  match m.reducer action.kind with
  | none => .error (.unknownKind action.kind)
  | some r =>
    match (r.get? "writes").bind Value.asObject? with
    | none => .ok []
    | some writes =>
      writes.mapM fun (field, w) =>
        (writeValue state action field w).map (writeOp action field)

/-- Does every live declared field have its declared type. -/
def checkState (m : L1) (state : Doc) : Except Reject Unit :=
  match m.fields.asObject? with
  | none => .ok ()
  | some obj =>
    obj.forM fun (field, t) =>
      let want := t.asStr?.getD ""
      match state.fields[field]? with
      | none => .ok ()
      | some f =>
        if !f.deleted && !typeMatches f.value want then
          .error (.badState ("field '" ++ field ++ "' must be " ++ want))
        else .ok ()

/-- The quorum requirement for a reducer kind, if any. -/
def quorum (m : L1) (kind : String) : Option QuorumSpec := (m.preList kind).findSome? parseQuorum

/-- The list of the document's SPACE the actor must appear in, if any. -/
def requiresSpaceMember (m : L1) (kind : String) : Option String :=
  (m.preList kind).findSome? fun p =>
    (p.get? "space-member").map fun v => v.asStr?.getD "members"

/-- The per-reducer authorization rule: an entry of the rule's array field whose name matches, when
    it is marked private, must list the actor. -/
def authorize (m : L1) (state : Doc) (action : Action) : Except Reject Unit :=
  match m.auth.get? action.kind with
  | none => .ok ()
  | some rule =>
    let str (key dflt : String) : String := ((rule.get? key).bind Value.asStr?).getD dflt
    let field := str "field" ""
    let nameKey := str "name" "name"
    let matchVal := evalTemplate action ((rule.get? "match").getD .null)
    let visKey := str "visibility" "visibility"
    let privateValue := Value.string (str "private" "private")
    let allowKey := str "allow" "members"
    (currentArray state field).forM fun entry =>
      if (match entry.get? nameKey with
          | some v => !(v == matchVal)
          | none => true) then .ok ()
      else if (match entry.get? visKey with
          | some v => !(v == privateValue)
          | none => true) then .ok ()
      else
        let allow := ((entry.get? allowKey).bind Value.asArray?).getD []
        if allow.any fun m => m.asStr? == some action.origin then .ok ()
        else
          .error (.precondition ("actor " ++ action.origin ++
            " is not a member of the private channel '" ++ matchVal.asStr?.getD "?" ++ "'"))

/-! ### What does not depend on the state -/

/-- On a document without fields no entry can withhold its authorization. -/
theorem authorize_of_fields_empty (m : L1) {state : Doc} (h : state.fields = ∅) (action : Action) :
    m.authorize state action = .ok () := by
  have harr : ∀ field, currentArray state field = [] := by
    intro field
    simp [currentArray, currentValue, h, Value.asArray?]
  unfold authorize
  cases m.auth.get? action.kind with
  | none => rfl
  | some rule =>
    simp only [harr]
    rfl

end L1

/-- Two writes of one action to one field, computed in two states: both are made, and either both
    values are the same string or neither is a string. -/
structure OpShape (op op' : Op) : Prop where
  key : op'.key = op.key
  text : op'.value.map Value.asStr? = op.value.map Value.asStr?

/-- Whether a write succeeds, and the string it writes if it writes one, do not depend on the
    state: `append` and `remove` always produce arrays. -/
theorem writeValue_shape (state state' : Doc) (action : Action) (field : String) (w : Value) :
    (∃ r, writeValue state action field w = .error r ∧ writeValue state' action field w = .error r)
      ∨ ∃ v v', writeValue state action field w = .ok v ∧ writeValue state' action field w = .ok v'
        ∧ v'.asStr? = v.asStr? := by
  unfold writeValue
  cases w.asObject?.bind List.head? with
  | none => exact Or.inl ⟨_, rfl, rfl⟩
  | some p =>
    obtain ⟨key, tmpl⟩ := p
    dsimp only
    by_cases h1 : key = "set"
    · simp only [h1, if_true]
      exact Or.inr ⟨_, _, rfl, rfl, rfl⟩
    · by_cases h2 : key = "append"
      · simp only [if_neg h1, if_pos h2]
        exact Or.inr ⟨_, _, rfl, rfl, rfl⟩
      · by_cases h3 : key = "remove"
        · simp only [if_neg h1, if_neg h2, if_pos h3]
          exact Or.inr ⟨_, _, rfl, rfl, rfl⟩
        · simp only [if_neg h1, if_neg h2, if_neg h3]
          exact Or.inl ⟨_, rfl, rfl⟩

/-- A list of writes, in two states. -/
theorem mapM_writeValue_shape (state state' : Doc) (action : Action) :
    ∀ writes : List (String × Value),
      (∃ r, writes.mapM (fun (field, w) =>
          (writeValue state action field w).map (L1.writeOp action field)) = .error r
        ∧ writes.mapM (fun (field, w) =>
          (writeValue state' action field w).map (L1.writeOp action field)) = .error r)
      ∨ ∃ ops ops', writes.mapM (fun (field, w) =>
          (writeValue state action field w).map (L1.writeOp action field)) = .ok ops
        ∧ writes.mapM (fun (field, w) =>
          (writeValue state' action field w).map (L1.writeOp action field)) = .ok ops'
        ∧ List.Forall₂ OpShape ops ops' := by
  intro writes
  induction writes with
  | nil => exact Or.inr ⟨[], [], rfl, rfl, .nil⟩
  | cons p writes ih =>
    obtain ⟨field, w⟩ := p
    simp only [List.mapM_cons]
    rcases writeValue_shape state state' action field w with ⟨r, h, h'⟩ | ⟨v, v', h, h', htext⟩
    · exact Or.inl ⟨r, by simp only [h]; rfl, by simp only [h']; rfl⟩
    · rcases ih with
        ⟨r, hm, hm'⟩ | ⟨ops, ops', hm, hm', hshape⟩
      · exact Or.inl ⟨r, by simp only [h, hm]; rfl, by simp only [h', hm']; rfl⟩
      · refine Or.inr ⟨L1.writeOp action field v :: ops, L1.writeOp action field v' :: ops',
          by simp only [h, hm]; rfl, by simp only [h', hm']; rfl, .cons ⟨rfl, ?_⟩ hshape⟩
        simp [L1.writeOp, htext]

namespace L1

/-- **The shape of a reduction is the same in every state.** -/
theorem reduce_shape (m : L1) (state state' : Doc) (action : Action) :
    (∃ r, m.reduce state action = .error r ∧ m.reduce state' action = .error r) ∨
      ∃ ops ops', m.reduce state action = .ok ops ∧ m.reduce state' action = .ok ops' ∧
        List.Forall₂ OpShape ops ops' := by
  unfold reduce
  cases m.reducer action.kind with
  | none => exact Or.inl ⟨_, rfl, rfl⟩
  | some r =>
    cases hw : (r.get? "writes").bind Value.asObject? with
    | none =>
      simp only [hw]
      exact Or.inr ⟨[], [], rfl, rfl, .nil⟩
    | some writes =>
      simp only [hw]
      exact mapM_writeValue_shape state state' action writes

/-- Every op of a reduction is a write of the action. -/
theorem mem_reduce {m : L1} {state : Doc} {action : Action} {ops : List Op}
    (h : m.reduce state action = .ok ops) : ∀ op ∈ ops, ∃ field v, op = writeOp action field v := by
  have key : ∀ (writes : List (String × Value)) (ops : List Op),
      writes.mapM (fun (field, w) =>
        (writeValue state action field w).map (writeOp action field)) = .ok ops →
      ∀ op ∈ ops, ∃ field v, op = writeOp action field v := by
    intro writes
    induction writes with
    | nil =>
      intro ops h op hop
      obtain rfl : [] = ops := by injection h
      exact absurd hop List.not_mem_nil
    | cons p writes ih =>
      obtain ⟨field, w⟩ := p
      intro ops h op hop
      rw [List.mapM_cons] at h
      cases hw : writeValue state action field w with
      | error r => simp only [hw] at h; cases h
      | ok v =>
        simp only [hw] at h
        cases hm : writes.mapM fun (p : String × Value) =>
            (writeValue state action p.1 p.2).map (writeOp action p.1) with
        | error r => simp only [hm] at h; cases h
        | ok rest =>
          simp only [hm] at h
          obtain rfl : writeOp action field v :: rest = ops := by injection h
          rcases List.mem_cons.mp hop with rfl | hop
          · exact ⟨field, v, rfl⟩
          · exact ih rest hm op hop
  unfold reduce at h
  cases hr : m.reducer action.kind with
  | none => rw [hr] at h; cases h
  | some r =>
    rw [hr] at h
    cases hw : (r.get? "writes").bind Value.asObject? with
    | none =>
      simp only [hw] at h
      obtain rfl : [] = ops := by injection h
      exact fun op hop => absurd hop List.not_mem_nil
    | some writes =>
      simp only [hw] at h
      exact key writes ops h

variable [Primitives]

/-- SHA-256 of a model's canonical JSON definition. -/
def modelDefHash (def_ : Value) : Hash32 := Primitives.sha256 (toVec def_)

/-- Build an interpreter from a definition value. -/
def fromDef (def_ : Value) : Except String L1 :=
  let name := ((def_.get? "name").bind Value.asStr?).getD ""
  if name = "" then .error "l1 model definition requires a non-empty 'name'"
  else .ok {
    ref_ := {
      name
      version := ((def_.get? "version").bind Value.asStr?).getD "1"
      hash := some (modelDefHash def_) }
    def_
    fields := (def_.get? "fields").getD .null
    reducers := (def_.get? "reducers").getD .null
    checks := (def_.get? "checks").getD .null
    auth := (def_.get? "auth").getD .null }

/-- Evaluate one precondition against the current state.  `budget` is `9 - depth`: named checks
    nest at most eight deep. -/
def evalPrecond (m : L1) (state : Doc) (action : Action) (p : Value) : ℕ → Except Reject Unit
  | 0 => .error (.precondition "named-check recursion too deep")
  | budget + 1 =>
    match p.asObject?.bind List.head? with
    | none => .error (.precondition "precondition must be a single-key object")
    | some (key, arg) =>
      match key with
      | "field-is" => do
        let f ← fieldName arg "field-is"
        let want := (arg.get? "value").getD .null
        let got := currentValue state f
        if got == want then .ok ()
        else .error (.precondition ("field '" ++ f ++ "' is " ++ Primitives.jsonText got ++
          ", expected " ++ Primitives.jsonText want))
      | "field-not" => do
        let f ← fieldName arg "field-not"
        let want := (arg.get? "value").getD .null
        if currentValue state f == want then
          .error (.precondition ("field '" ++ f ++ "' must not be " ++ Primitives.jsonText want))
        else .ok ()
      | "field-present" => do
        let f ← stringArg arg "field-present"
        if isPresent state f then .ok ()
        else .error (.precondition ("field '" ++ f ++ "' absent"))
      | "field-absent" => do
        let f ← stringArg arg "field-absent"
        if isPresent state f then .error (.precondition ("field '" ++ f ++ "' present"))
        else .ok ()
      | "actor-in" => do
        let f ← stringArg arg "actor-in"
        if inList state f action.origin then .ok ()
        else .error (.precondition ("actor " ++ action.origin ++ " is not in '" ++ f ++ "'"))
      | "actor-not-in" => do
        let f ← stringArg arg "actor-not-in"
        if inList state f action.origin then
          .error (.precondition ("actor " ++ action.origin ++ " is in '" ++ f ++ "'"))
        else .ok ()
      | "actor-is" => do
        let who ← stringArg arg "actor-is"
        if action.origin = who then .ok ()
        else .error (.precondition ("actor is " ++ action.origin ++ ", expected " ++ who))
      | "check" => do
        let name ← stringArg arg "check"
        match m.checks.get? name with
        | none => .error (.precondition ("unknown named check '" ++ name ++ "'"))
        | some sub => evalPrecond m state action sub budget
      | _ => .error (.precondition ("unsupported precondition '" ++ key ++ "'"))

/-- Check the reducer's preconditions against the current state.  Quorum and space membership are
    declared here but checked by the store. -/
def checkPrecondition (m : L1) (state : Doc) (action : Action) : Except Reject Unit :=
  (m.preList action.kind).forM fun p =>
    if isQuorum p || isSpaceMember p then .ok () else m.evalPrecond state action p 9

end L1

end PhReactor
