/-
  Processors: reactions that run when a change of the doc-change feed matches a filter
  (`src/processor.rs`, without the tasks and the files around it).

  A processor is a FILTER over changes and a REACTION.  The reactions are templates: `$doc`,
  `$model` and `$name` are replaced by the name and the model of the document that changed.  One of
  them, `Run`, hands the result to `sh -c`, so the text of a document's name becomes part of a
  program (`Performed.run`).

  `str::replace` works on characters from the left, without overlap (`replaceFrom`).  All that
  matters of it here is that it invents no character (`mem_substitute`).
-/
import PhReactor.Store.Api

namespace PhReactor

/-! ## Filters -/

/-- A subscription filter over the doc-change feed.  No models means any model. -/
structure ActionFilter where
  models : List String
  actionKind : Option String
  field : Option String
  value : Option Value

/-- Match a change against the filter: every constraint that is there must hold. -/
def ActionFilter.matches (f : ActionFilter) (c : DocChange) : Bool :=
  if !f.models.isEmpty && !f.models.contains c.model.name then false
  else if f.actionKind.any fun k => c.actionKind != some k then false
  else if f.field.any fun k => c.actionField != some k then false
  else if f.value.any fun v => !(c.actionValue.any fun w => w == v) then false
  else true

/-! ## Reactions -/

/-- What a processor does when its filter matches. -/
inductive Reaction where
  | log (message : String)
  /-- Run a local command. -/
  | run (command : String)
  | emit (event : String)
  /-- Create a document, unless the name exists. -/
  | createDoc (model name : String) (fields : Std.ExtTreeMap String Value)

/-- A persisted, user-configurable processor. -/
structure ProcessorSpec where
  name : String
  models : List String
  actionKind : Option String
  field : Option String
  value : Option Value
  reaction : Reaction

def ProcessorSpec.filter (spec : ProcessorSpec) : ActionFilter where
  models := spec.models
  actionKind := spec.actionKind
  field := spec.field
  value := spec.value

/-- `str::replace` for a non-empty pattern; the first `skip` characters belong to a match that has
    been replaced already. -/
def replaceFrom (pat new : List Char) : ℕ → List Char → List Char
  | _, [] => []
  | skip + 1, _ :: cs => replaceFrom pat new skip cs
  | 0, c :: cs =>
    if pat.isPrefixOf (c :: cs) then new ++ replaceFrom pat new (pat.length - 1) cs
    else c :: replaceFrom pat new 0 cs

/-- `text.replace(pat, new)`. -/
def replaceAll (text pat new : String) : String :=
  String.ofList (replaceFrom pat.toList new.toList 0 text.toList)

def substitute (template doc model : String) : String :=
  replaceAll (replaceAll (replaceAll template "$doc" doc) "$model" model) "$name" doc

/-- What a reaction comes to. -/
inductive Performed where
  | log (message : String)
  | emit (event : String)
  /-- `sh -c cmd`, with the document and the model in the environment. -/
  | run (cmd phDoc phModel : String)
  /-- The document to create is there already. -/
  | skipped (name : String)
  /-- `create_doc_model`. -/
  | create (name : String) (model : ModelRef) (payload : Value)

/-- A field of the document to create; only strings are templates. -/
def templated (doc model : String) (v : Value) : Value :=
  match v.asStr? with
  | some t => .string (substitute t doc model)
  | none => v

/-- Run one spec's reaction. -/
def perform [Primitives] (store : Inner) (spec : ProcessorSpec) (change : DocChange) : Performed :=
  let doc := change.name
  match spec.reaction with
  | .log message => .log (substitute message doc change.model.name)
  | .emit event => .emit (substitute event doc change.model.name)
  | .run command => .run (substitute command doc change.model.name) doc change.model.name
  | .createDoc model name fields =>
    -- here `$model` is the model of the document to create
    let docName := substitute name doc model
    if (Store.get store docName).isSome then .skipped docName
    else
      let payload : Std.ExtTreeMap String Value := fields.toList.foldl
        (fun payload (k, v) => payload.insert k (templated doc model v))
        ((∅ : Std.ExtTreeMap String Value).insert "__name__" (.string docName))
      .create docName (ModelRef.new (substitute model doc model) "1") (.object payload.toList)

/-! ## Substitution invents no character -/

theorem mem_replaceFrom {pat new : List Char} {c : Char} : ∀ {text : List Char} {skip : ℕ},
    c ∈ replaceFrom pat new skip text → c ∈ text ∨ c ∈ new := by
  intro text
  induction text with
  | nil =>
    intro skip h
    cases skip <;> exact absurd h List.not_mem_nil
  | cons x text ih =>
    intro skip h
    cases skip with
    | succ n => exact (@ih n h).imp_left (List.mem_cons_of_mem x)
    | zero =>
      unfold replaceFrom at h
      split at h
      · rcases List.mem_append.mp h with h | h
        · exact Or.inr h
        · exact (ih h).imp_left (List.mem_cons_of_mem x)
      · rcases List.mem_cons.mp h with rfl | h
        · exact Or.inl List.mem_cons_self
        · exact (ih h).imp_left (List.mem_cons_of_mem x)

theorem mem_replaceAll {text pat new : String} {c : Char}
    (h : c ∈ (replaceAll text pat new).toList) : c ∈ text.toList ∨ c ∈ new.toList := by
  unfold replaceAll at h
  rw [String.toList_ofList] at h
  exact mem_replaceFrom h

/-- **Every character of a substituted text** is the template's, the name's or the model's. -/
theorem mem_substitute {template doc model : String} {c : Char}
    (h : c ∈ (substitute template doc model).toList) :
    c ∈ template.toList ∨ c ∈ doc.toList ∨ c ∈ model.toList := by
  rcases mem_replaceAll h with h | h
  · rcases mem_replaceAll h with h | h
    · rcases mem_replaceAll h with h | h
      · exact Or.inl h
      · exact Or.inr (Or.inl h)
    · exact Or.inr (Or.inr h)
  · exact Or.inr (Or.inl h)

example : substitute "echo $doc ($model) $name$doc" "notes" "open" =
    "echo notes (open) notesnotes" := by decide +kernel

end PhReactor
