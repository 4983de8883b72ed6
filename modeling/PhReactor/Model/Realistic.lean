/-
  The models of the binary that are not built into the store (`src/model/realistic.rs`).

  Seven small definitions, loaded at every start between the built-in ones and those of the models
  file.  All of them spell their version out.
-/
import PhReactor.Model.Builtins

namespace PhReactor

open Def

/-! ## The definitions -/

/-- A write of the payload's field of the same name. -/
def fromPayload (field : String) : String × Value := (field, set (.string ("$payload." ++ field)))

/-- `"__name__": { "set": "$payload.name" }`. -/
def nameFromPayload : String × Value := ("__name__", set (.string "$payload.name"))

/-- A reducer that sets one field from the payload. -/
def fieldSetter (field type_ : String) : Value := reducer [(field, type_)] [] [fromPayload field]

/-- `folder@1`. -/
def folderDef : Value :=
  .object [
    ("fields", types [("description", "string"), ("members", "string[]")]),
    ("name", .string "folder"),
    ("reducers", .object [
      ("add-member", reducer [("member", "string")] [] [("members", append "$payload.member")]),
      ("init", reducer [("description", "string"), ("members", "string[]"), ("name", "string")] []
        [nameFromPayload, fromPayload "description", fromPayload "members"]),
      ("remove-member", reducer [("member", "string")] []
        [("members", remove "$payload.member")]),
      ("set-description", fieldSetter "description" "string")]),
    ("version", .string "1")]

/-- `note@1`. -/
def noteDef : Value :=
  .object [
    ("fields", types [("body", "string"), ("title", "string")]),
    ("name", .string "note"),
    ("reducers", .object [
      ("edit", reducer [("body", "string"), ("title", "string")] []
        [fromPayload "body", fromPayload "title"]),
      ("init", reducer [("body", "string"), ("name", "string"), ("title", "string")] []
        [nameFromPayload, fromPayload "body", fromPayload "title"]),
      ("set-body", fieldSetter "body" "string"),
      ("set-title", fieldSetter "title" "string")]),
    ("version", .string "1")]

/-- `project@1`. -/
def projectDef : Value :=
  .object [
    ("fields", types [("description", "string"), ("due_date", "string"), ("owner", "string"),
      ("status", "string")]),
    ("name", .string "project"),
    ("reducers", .object [
      ("init", reducer [("description", "string"), ("due_date", "string"), ("name", "string"),
          ("owner", "string"), ("status", "string")] []
        [nameFromPayload, fromPayload "description", fromPayload "due_date", fromPayload "owner",
         fromPayload "status"]),
      ("set-due-date", fieldSetter "due_date" "string"),
      ("set-owner", fieldSetter "owner" "string"),
      ("set-status", fieldSetter "status" "string")]),
    ("version", .string "1")]

/-- `task@1`. -/
def taskDef : Value :=
  .object [
    ("enums", .object [("status", .array [.string "open", .string "in-progress",
      .string "blocked", .string "done"])]),
    ("fields", types [("assignee", "string"), ("priority", "number"), ("project", "string"),
      ("status", "string"), ("tags", "string[]"), ("title", "string")]),
    ("name", .string "task"),
    ("reducers", .object [
      ("init", reducer [("assignee", "string"), ("name", "string"), ("priority", "number"),
          ("project", "string"), ("status", "string"), ("title", "string")] []
        [nameFromPayload, fromPayload "assignee", fromPayload "priority", fromPayload "project",
         fromPayload "status", fromPayload "title"]),
      ("set-assignee", fieldSetter "assignee" "string"),
      ("set-priority", fieldSetter "priority" "number"),
      ("set-project", fieldSetter "project" "string"),
      ("set-status", fieldSetter "status" "string"),
      ("set-tags", fieldSetter "tags" "string[]"),
      ("set-title", fieldSetter "title" "string")]),
    ("version", .string "1")]

/-- `account@1`. -/
def accountDef : Value :=
  .object [
    ("fields", types [("balance", "number"), ("currency", "string")]),
    ("name", .string "account"),
    ("reducers", .object [
      ("init", reducer [("balance", "number"), ("currency", "string"), ("name", "string")] []
        [nameFromPayload, fromPayload "balance", fromPayload "currency"]),
      ("set-balance", fieldSetter "balance" "number")]),
    ("version", .string "1")]

/-- `transaction@1`. -/
def transactionDef : Value :=
  .object [
    ("fields", types [("account", "string"), ("amount", "number"), ("category", "string"),
      ("date", "string")]),
    ("name", .string "transaction"),
    ("reducers", .object [
      ("init", reducer [("account", "string"), ("amount", "number"), ("category", "string"),
          ("date", "string"), ("name", "string")] []
        [nameFromPayload, fromPayload "account", fromPayload "amount", fromPayload "category",
         fromPayload "date"]),
      ("set-amount", fieldSetter "amount" "number")]),
    ("version", .string "1")]

/-- `invoice@1`. -/
def invoiceDef : Value :=
  .object [
    ("fields", types [("currency", "string"), ("customer", "string"), ("number", "string"),
      ("status", "string"), ("total", "number")]),
    ("name", .string "invoice"),
    ("reducers", .object [
      ("init", reducer [("currency", "string"), ("customer", "string"), ("name", "string"),
          ("number", "string"), ("status", "string"), ("total", "number")] []
        [nameFromPayload, fromPayload "currency", fromPayload "customer", fromPayload "number",
         fromPayload "status", fromPayload "total"]),
      ("set-customer", fieldSetter "customer" "string"),
      ("set-status", fieldSetter "status" "string"),
      ("set-total", fieldSetter "total" "number")]),
    ("version", .string "1")]

/-- In the order in which they are loaded. -/
def realisticDefs : List Value :=
  [projectDef, taskDef, accountDef, transactionDef, invoiceDef, folderDef, noteDef]

theorem realisticDefs_sorted : ∀ d ∈ realisticDefs, sortedKeys d = true := by
  decide

/-! ## The models -/

variable [Primitives]

/-- Every realistic model, ready to be registered. -/
def realisticModels : List Model := realisticDefs.map fun d => .l1 (expectL1 d)

/-- No `expect` fires, and every definition spells its version out. -/
theorem realisticDefs_wellFormed : ∀ d ∈ realisticDefs, L1.fromDef d = .ok (expectL1 d) ∧
    (expectL1 d).def_ = d ∧ d.get? "version" = some (.string "1") := by
  intro d hd
  simp only [realisticDefs, List.mem_cons, List.not_mem_nil, or_false] at hd
  rcases hd with rfl | rfl | rfl | rfl | rfl | rfl | rfl <;> exact ⟨rfl, rfl, rfl⟩

end PhReactor
