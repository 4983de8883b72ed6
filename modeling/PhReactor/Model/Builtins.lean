/-
  The built-in models (`src/model/group.rs`, `space.rs`, `chat.rs`, `drive.rs`, `package.rs`,
  `release.rs`): each is a definition interpreted by `L1`.

  The definitions are written with every object in KEY ORDER, which is how `serde_json` keeps
  them; `builtinDefs_sorted` checks that.
-/
import PhReactor.Model.Registry

namespace PhReactor

/-! ## Vocabulary for definitions -/

namespace Def

/-- A `fields` or `payload` map: names to type strings. -/
def types (l : List (String × String)) : Value := .object (l.map fun (f, t) => (f, .string t))

def set (t : Value) : Value := .object [("set", t)]

def append (t : String) : Value := .object [("append", .string t)]

def remove (t : String) : Value := .object [("remove", .string t)]

/-- A reducer with payload schema, preconditions and writes. -/
def reducer (payload : List (String × String)) (pre : List Value)
    (writes : List (String × Value)) : Value :=
  .object [("payload", types payload), ("pre", .array pre), ("writes", .object writes)]

/-- A reducer without a `pre` list. -/
def openReducer (payload : List (String × String)) (writes : List (String × Value)) : Value :=
  .object [("payload", types payload), ("writes", .object writes)]

def actorIn (field : String) : Value := .object [("actor-in", .string field)]

/-- The two-person rule over the document's own `members`. -/
def selfQuorum : Value :=
  .object [("quorum", .object [("field", .string "members"), ("group", .string "$self"),
    ("min", .number (.posInt 2))])]

def spaceMember (list : Value) : Value := .object [("space-member", list)]

end Def

open Def

/-! ## The definitions -/

/-- The default `general` channel seeded on `init`. -/
def generalChannel : Value :=
  .object [("members", .array []), ("name", .string "general"), ("visibility", .string "public")]

/-- The `writes` of a group's `init`. -/
def groupInitWrites : List (String × Value) :=
  [("__name__", set (.string "$payload.name")),
   ("channels", set (.array [generalChannel])),
   ("drive", set (.array [])),
   ("managers", set (.string "$payload.managers")),
   ("members", set (.string "$payload.members")),
   ("msg_channel", set (.array [])),
   ("msg_from", set (.array [])),
   ("msg_text", set (.array [])),
   ("msg_ts", set (.array []))]

/-- The authorization rule of a group's `post`: the private-channel gate. -/
def groupPostAuth : Value :=
  .object [("allow", .string "members"), ("field", .string "channels"),
    ("match", .string "$payload.channel"), ("name", .string "name"),
    ("private", .string "private"), ("visibility", .string "visibility")]

/-- A group's reducers. -/
def groupReducers : List (String × Value) :=
  [("add-channel", reducer [("item", "object")] [actorIn "members"]
      [("channels", append "$payload.item")]),
   ("add-doc", reducer [("item", "object")] [actorIn "members"]
      [("drive", append "$payload.item")]),
   ("add-folder", reducer [("item", "object")] [actorIn "members"]
      [("drive", append "$payload.item")]),
   ("add-manager", reducer [("member", "string")] [selfQuorum]
      [("managers", append "$payload.member"), ("members", append "$payload.member")]),
   ("add-member", reducer [("member", "string")] [actorIn "managers"]
      [("members", append "$payload.member")]),
   ("init", reducer [("managers", "string[]"), ("members", "string[]"), ("name", "string")] []
      groupInitWrites),
   ("post", reducer [("channel", "string"), ("text", "string")] [actorIn "members"]
      [("msg_channel", append "$payload.channel"), ("msg_from", append "$actor"),
       ("msg_text", append "$payload.text"), ("msg_ts", append "$ts")]),
   ("remove-channel", reducer [("channels", "array")] [actorIn "managers"]
      [("channels", set (.string "$payload.channels"))]),
   ("remove-item", reducer [("drive", "array")] [actorIn "managers"]
      [("drive", set (.string "$payload.drive"))]),
   ("remove-member", reducer [("member", "string")] [actorIn "managers"]
      [("members", remove "$payload.member")])]

/-- `group@1`. -/
def groupDef : Value :=
  .object [
    ("auth", .object [("post", groupPostAuth)]),
    ("fields", types [("channels", "array"), ("drive", "array"), ("managers", "string[]"),
      ("members", "string[]"), ("msg_channel", "string[]"), ("msg_from", "string[]"),
      ("msg_text", "string[]"), ("msg_ts", "number[]")]),
    ("name", .string "group"),
    ("reducers", .object groupReducers),
    ("version", .string "1")]

/-- A space's reducers. -/
def spaceReducers : List (String × Value) :=
  [("add-manager", reducer [("member", "string")] [selfQuorum]
      [("managers", append "$payload.member"), ("members", append "$payload.member")]),
   ("add-member", reducer [("member", "string")] [actorIn "managers"]
      [("members", append "$payload.member")]),
   ("disable-app", reducer [("apps", "array")] [actorIn "managers"]
      [("apps", set (.string "$payload.apps"))]),
   ("enable-app", reducer [("item", "object")] [actorIn "managers"]
      [("apps", append "$payload.item")]),
   ("init", reducer [("managers", "string[]"), ("members", "string[]"), ("name", "string"),
        ("visibility", "string")] []
      [("__name__", set (.string "$payload.name")),
       ("apps", set (.array [])),
       ("managers", set (.string "$payload.managers")),
       ("members", set (.string "$payload.members")),
       ("visibility", set (.string "$payload.visibility"))]),
   ("remove-member", reducer [("member", "string")] [actorIn "managers"]
      [("members", remove "$payload.member")])]

/-- `space@1`. -/
def spaceDef : Value :=
  .object [
    ("$comment", .string ("The unit of access. `visibility` is fixed at init -- there " ++
      "is no reducer that changes it, deliberately. `apps` holds " ++
      "the packages enabled here; installing a package is a " ++
      "node-level trust decision, enabling it here is a separate " ++
      "one about data.")),
    ("fields", types [("apps", "array"), ("managers", "string[]"), ("members", "string[]"),
      ("visibility", "string")]),
    ("name", .string "space"),
    ("reducers", .object spaceReducers),
    ("version", .string "1")]

/-- A chat's reducers. -/
def chatReducers : List (String × Value) :=
  [("init", reducer [("channel", "string"), ("name", "string")] [spaceMember (.bool true)]
      [("__name__", set (.string "$payload.name")),
       ("channel", set (.string "$payload.channel")),
       ("msg_from", set (.array [])),
       ("msg_text", set (.array [])),
       ("msg_ts", set (.array []))]),
   ("post", reducer [("text", "string")] [spaceMember (.bool true)]
      [("msg_from", append "$actor"), ("msg_text", append "$payload.text"),
       ("msg_ts", append "$ts")])]

/-- `chat@1`. -/
def chatDef : Value :=
  .object [
    ("$comment", .string ("A channel. Messages are parallel arrays appended by one " ++
      "action, so they stay the same length and in order. Who may " ++
      "post comes from the space, not from this document.")),
    ("fields", types [("channel", "string"), ("msg_from", "string[]"), ("msg_text", "string[]"),
      ("msg_ts", "number[]")]),
    ("name", .string "chat"),
    ("reducers", .object chatReducers),
    ("version", .string "1")]

/-- `drive@1`. -/
def driveDef : Value :=
  .object [
    ("$comment", .string ("A folder tree. `kind` is 'folder' (a container, no separate " ++
      "document) or 'doc' (a real document of `model`). Removal " ++
      "recomputes the whole array and sets it, which converges " ++
      "under the canonical fold.")),
    ("fields", types [("items", "array")]),
    ("name", .string "drive"),
    ("reducers", .object [
      ("add-item", reducer [("item", "object")] [spaceMember (.bool true)]
        [("items", append "$payload.item")]),
      ("init", reducer [("name", "string")] [spaceMember (.bool true)]
        [("__name__", set (.string "$payload.name")), ("items", set (.array []))]),
      ("remove-item", reducer [("items", "array")] [spaceMember (.string "managers")]
        [("items", set (.string "$payload.items"))])]),
    ("version", .string "1")]

/-- The `withdraw` preconditions of packages and releases. -/
def withdrawPre : List Value :=
  [actorIn "publishers",
   .object [("field-is", .object [("field", .string "status"), ("value", .string "published")])]]

/-- `package@1`. -/
def packageDef : Value :=
  .object [
    ("$comment", .string ("A plugin package offered on the mesh. Publishing is open; " ++
      "installing is the operator's decision.")),
    ("fields", types [("description", "string"), ("manifest", "string"),
      ("package_name", "string"), ("package_version", "string"), ("publisher_key", "string"),
      ("publisher_name", "string"), ("publishers", "string[]"), ("status", "string")]),
    ("name", .string "package"),
    ("reducers", .object [
      ("init", openReducer [("manifest", "string"), ("name", "string"),
          ("package_name", "string"), ("package_version", "string"), ("publisher_key", "string")]
        [("__name__", set (.string "$payload.name")),
         ("description", set (.string "$payload.description")),
         ("manifest", set (.string "$payload.manifest")),
         ("package_name", set (.string "$payload.package_name")),
         ("package_version", set (.string "$payload.package_version")),
         ("publisher_key", set (.string "$payload.publisher_key")),
         ("publisher_name", set (.string "$payload.publisher_name")),
         ("publishers", append "$actor"),
         ("status", set (.string "published"))]),
      ("withdraw", reducer [("reason", "string")] withdrawPre
        [("description", set (.string "$payload.reason")),
         ("status", set (.string "withdrawn"))])]),
    ("version", .string "1")]

/-- `release@1`. -/
def releaseDef : Value :=
  .object [
    ("$comment", .string ("A published daemon build. `manifest` holds the signed " ++
      "release JSON; the fields beside it are duplicated out so a " ++
      "node can filter without parsing every one.")),
    ("fields", types [("manifest", "string"), ("notes", "string"), ("platform", "string"),
      ("publisher_key", "string"), ("publishers", "string[]"), ("release_version", "string"),
      ("status", "string")]),
    ("name", .string "release"),
    ("reducers", .object [
      ("init", openReducer [("manifest", "string"), ("name", "string"), ("platform", "string"),
          ("publisher_key", "string"), ("release_version", "string")]
        [("__name__", set (.string "$payload.name")),
         ("manifest", set (.string "$payload.manifest")),
         ("notes", set (.string "$payload.notes")),
         ("platform", set (.string "$payload.platform")),
         ("publisher_key", set (.string "$payload.publisher_key")),
         ("publishers", append "$actor"),
         ("release_version", set (.string "$payload.release_version")),
         ("status", set (.string "published"))]),
      ("withdraw", reducer [("reason", "string")] withdrawPre
        [("notes", set (.string "$payload.reason")),
         ("status", set (.string "withdrawn"))])]),
    ("version", .string "1")]

mutual
/-- Every object of `v` is in key order. -/
def sortedKeys : Value → Bool
  | .array a => sortedKeysList a
  | .object o => decide ((o.map Prod.fst).Pairwise (· < ·)) && sortedKeysEntries o
  | _ => true

def sortedKeysList : List Value → Bool
  | [] => true
  | v :: l => sortedKeys v && sortedKeysList l

def sortedKeysEntries : List (String × Value) → Bool
  | [] => true
  | (_, v) :: l => sortedKeys v && sortedKeysEntries l
end

theorem builtinDefs_sorted :
    ∀ d ∈ [groupDef, spaceDef, chatDef, driveDef, packageDef, releaseDef], sortedKeys d = true := by
  decide

/-! ## The models -/

variable [Primitives]

/-- `L1::from_def(..).expect(..)`. -/
def expectL1 (def_ : Value) : L1 :=
  match L1.fromDef def_ with
  | .ok m => m
  | .error _ => ⟨ModelRef.new "" "", def_, .null, .null, .null, .null⟩

def group : L1 := expectL1 groupDef

def space : L1 := expectL1 spaceDef

def chat : L1 := expectL1 chatDef

def drive : L1 := expectL1 driveDef

def package : L1 := expectL1 packageDef

def release : L1 := expectL1 releaseDef

/-- No `expect` fires: every built-in definition builds, under the name it declares. -/
theorem builtins_wellFormed :
    ∀ p ∈ [(groupDef, "group"), (spaceDef, "space"), (chatDef, "chat"), (driveDef, "drive"),
        (packageDef, "package"), (releaseDef, "release")],
      L1.fromDef p.1 = .ok (expectL1 p.1) ∧ (expectL1 p.1).ref_.name = p.2 ∧
        (expectL1 p.1).ref_.version = "1" := by
  intro p hp
  simp only [List.mem_cons, List.not_mem_nil, or_false] at hp
  rcases hp with rfl | rfl | rfl | rfl | rfl | rfl <;> exact ⟨rfl, rfl, rfl⟩

/-- A registry seeded with all built-in models. -/
def ModelRegistry.seededWithBuiltins : ModelRegistry :=
  [.l1 group, .l1 package, .l1 release, .l1 space, .l1 chat, .l1 drive].foldl
    ModelRegistry.insert (ModelRegistry.insert ⟨∅⟩ .open)

/-- Every built-in model is found under its name, unpinned. -/
theorem seededWithBuiltins_find : ∀ p ∈ [("group", group), ("space", space), ("chat", chat),
      ("drive", drive), ("package", package), ("release", release)],
    ModelRegistry.seededWithBuiltins.find (ModelRef.new p.1 "1") = some (.l1 p.2) := by
  intro p hp
  unfold ModelRegistry.seededWithBuiltins
  simp only [List.foldl_cons, List.foldl_nil, ModelRegistry.find_insert]
  simp only [List.mem_cons, List.not_mem_nil, or_false] at hp
  rcases hp with rfl | rfl | rfl | rfl | rfl | rfl <;> rfl

end PhReactor
