/-
  Concrete values to evaluate the model on.

  `Sample.primitives` stands in for the third-party crates.  It behaves as they do wherever the
  model looks: `jsonText` prints compact JSON, a signature made with a key verifies under the
  verifying key of that key and no other, and the digest tells short messages apart (it is a
  polynomial in their bytes, not SHA-256).

  The rest are builders: peers, their signed actions, and stores that know the peers.
-/
import PhReactor.Store.Events

namespace PhReactor.Sample

mutual
/-- Compact JSON.  The sample values need no escapes and no floats. -/
def jsonText : Value → String
  | .null => "null"
  | .bool b => if b then "true" else "false"
  | .number (.posInt n) => toString n.val
  | .number (.negInt n) => toString n
  | .number (.float bits) => "f" ++ toString bits.val
  | .string s => "\"" ++ s ++ "\""
  | .array a => "[" ++ jsonItems a ++ "]"
  | .object o => "\x7b" ++ jsonEntries o ++ "\x7d"

def jsonItems : List Value → String
  | [] => ""
  | [v] => jsonText v
  | v :: rest => jsonText v ++ "," ++ jsonItems rest

def jsonEntries : List (String × Value) → String
  | [] => ""
  | [(k, v)] => "\"" ++ k ++ "\":" ++ jsonText v
  | (k, v) :: rest => "\"" ++ k ++ "\":" ++ jsonText v ++ "," ++ jsonEntries rest
end

/-- The digest of the sample: a polynomial in the bytes, modulo `2 ^ 256`. -/
def digest (bytes : List UInt8) : Hash32 :=
  Fin.ofNat _ (bytes.foldl (fun h b => (h * 6364136223846793005 + b.toNat + 1) % 2 ^ 256) 7)

/-- The signature of the sample: key and digest side by side. -/
def tag (key : Fin (2 ^ 256)) (bytes : List UInt8) : Sig :=
  Fin.ofNat _ (key.val * 2 ^ 256 + (digest bytes).val)

@[reducible] def primitives : Primitives where
  sha256 := digest
  jsonText := jsonText
  keyOk := fun _ => true
  verifyStrict := fun pk bytes sig => sig == tag pk bytes
  verifyingKey := id
  sign := tag

/-! ## Peers and their actions -/

structure Peer where
  name : Origin
  key : SigningKey

def alice : Peer := ⟨"alice", 1⟩

def bob : Peer := ⟨"bob", 2⟩

def mallory : Peer := ⟨"mallory", 3⟩

/-- A list of strings as a JSON array. -/
def strs (l : List String) : Value := .array (l.map .string)

def clockOf (l : List (Origin × U64)) : VecClock := ⟨Std.ExtTreeMap.ofList l⟩

/-- The sample document. -/
def docId : DocId := 1

attribute [local instance] primitives

/-- An action of `p` on the document `id`, signed. -/
def actOn (id : DocId) (p : Peer) (model kind : String) (payload : Value) (ts : U64)
    (clock : List (Origin × U64)) (space : Option DocId) : Action :=
  Action.sign {
    docId := id
    model := ModelRef.new model "1"
    kind
    payload
    ts
    clock := clockOf clock
    origin := p.name
    cosig := []
    prevHash := none
    space
    sig := 0 } p.key

/-- An action of `p` on the sample document. -/
def act : Peer → String → String → Value → U64 → List (Origin × U64) → Option DocId → Action :=
  actOn docId

/-- The peers' keys are pinned. -/
def pins (peers : List Peer) : List Event := peers.map fun p => .registerPeerKey p.name p.key

/-- Actions are delivered one after the other, every write succeeding. -/
def deliver (actions : List Action) : List Event := actions.map (.applyAction Io.ok)

/-- Is every one of the actions accepted where it arrives. -/
def acceptsAll (s : Inner) : List Action → Bool
  | [] => true
  | a :: rest => (s.applyAction Io.ok a).2.isOk && acceptsAll (s.applyAction Io.ok a).1 rest

/-- The `init` of the sample group: alice manages it, alice and bob are members. -/
def groupInit : Action :=
  act alice "group" "init" (.object [("managers", strs ["alice"]),
    ("members", strs ["alice", "bob"]), ("name", .string "core")]) 10 [("alice", 1)] none

/-- The sample space: alice manages it, alice and bob are members. -/
def spaceId : DocId := 5

def spaceInit : Action :=
  actOn spaceId alice "space" "init" (.object [("managers", strs ["alice"]),
    ("members", strs ["alice", "bob"]), ("name", .string "club"),
    ("visibility", .string "protected")]) 5 [("alice", 1)] (some spaceId)

/-- A post in the general channel. -/
def post (p : Peer) (text : String) (ts : U64) (clock : List (Origin × U64)) : Action :=
  act p "group" "post" (.object [("channel", .string "general"), ("text", .string text)]) ts clock
    none

/-- Alice removes bob from the sample group. -/
def removeBob (ts : U64) : Action :=
  act alice "group" "remove-member" (.object [("member", .string "bob")]) ts [("alice", 2)] none

end PhReactor.Sample
