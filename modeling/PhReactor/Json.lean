/-
  JSON values, as `serde_json::Value` has them.

  * A number is a non-negative integer (`PosInt(u64)`), a negative one (`NegInt(i64)`) or a finite
    float, kept here as its IEEE-754 bits.  The three never compare equal to one another, and two
    floats compare by VALUE: `0.0 == -0.0` although the bits differ.
  * An object is a map sorted by key (the `preserve_order` feature is off), written as its list of
    entries in key order: `iter().next()` is the head of the list.

  `Value.beq` is Rust's `PartialEq`.  On floats it is coarser than equality, so it is not a lawful
  `BEq`; whatever compares a value with a STRING — every comparison the models below make against
  an origin or a name — is exact (`Value.beq_string_right`).
-/
import Mathlib.Algebra.Group.Nat.Defs
import Mathlib.Data.List.Basic
import Mathlib.Order.Fin.Basic

namespace PhReactor

/-- `u64`.  Arithmetic on it wraps, as the release profile compiles it. -/
abbrev U64 := Fin (2 ^ 64)

/-- The integer types below are not empty. -/
theorem two_pow_ne_zero (n : ℕ) : 2 ^ n ≠ 0 := (Nat.two_pow_pos n).ne'

-- the sizes of the integer types, as instances that every literal of theirs shares
instance u64NeZero : @NeZero ℕ Zero.ofOfNat0 (2 ^ 64) := ⟨two_pow_ne_zero 64⟩

/-- `serde_json::Number`. -/
inductive Number where
  | posInt (n : U64)
  | negInt (n : Int)
  | float (bits : U64)
  deriving DecidableEq

/-- `+0.0` or `-0.0`. -/
def Number.isZeroBits (bits : U64) : Bool := bits == 0 || bits == 9223372036854775808

/-- `Number`'s `PartialEq`: floats compare by value. -/
def Number.beq : Number → Number → Bool
  | .posInt a, .posInt b => a == b
  | .negInt a, .negInt b => a == b
  | .float a, .float b => a == b || (Number.isZeroBits a && Number.isZeroBits b)
  | _, _ => false

theorem Number.beq_refl (n : Number) : n.beq n = true := by
  cases n <;> simp [Number.beq]

/-- `serde_json::Value`. -/
inductive Value where
  | null
  | bool (b : Bool)
  | number (n : Number)
  | string (s : String)
  | array (a : List Value)
  | object (o : List (String × Value))

namespace Value

instance : Inhabited Value := ⟨.null⟩

/-! ## Accessors -/

/-- `Value::get(key)`: the member of an object, nothing on any other value. -/
def get? (v : Value) (key : String) : Option Value :=
  match v with
  | .object o => o.lookup key
  | _ => none

def asStr? : Value → Option String
  | .string s => some s
  | _ => none

def asArray? : Value → Option (List Value)
  | .array a => some a
  | _ => none

def asObject? : Value → Option (List (String × Value))
  | .object o => some o
  | _ => none

def asU64? : Value → Option U64
  | .number (.posInt n) => some n
  | _ => none

def isString : Value → Bool
  | .string _ => true
  | _ => false

def isNumber : Value → Bool
  | .number _ => true
  | _ => false

def isBoolean : Value → Bool
  | .bool _ => true
  | _ => false

def isObject : Value → Bool
  | .object _ => true
  | _ => false

def isArray : Value → Bool
  | .array _ => true
  | _ => false

/-- `Map::insert`, on the members of an object in key order. -/
def insertEntry (key : String) (value : Value) : List (String × Value) → List (String × Value)
  | [] => [(key, value)]
  | (k, v) :: rest =>
    if key = k then (key, value) :: rest
    else if key < k then (key, value) :: (k, v) :: rest
    else (k, v) :: insertEntry key value rest

/-! ## Comparison -/

mutual
/-- `Value`'s `PartialEq`. -/
def beq : Value → Value → Bool
  | .null, .null => true
  | .bool a, .bool b => a == b
  | .number a, .number b => a.beq b
  | .string a, .string b => a == b
  | .array a, .array b => beqList a b
  | .object a, .object b => beqEntries a b
  | _, _ => false

def beqList : List Value → List Value → Bool
  | [], [] => true
  | a :: as, b :: bs => beq a b && beqList as bs
  | _, _ => false

def beqEntries : List (String × Value) → List (String × Value) → Bool
  | [], [] => true
  | (k, a) :: as, (l, b) :: bs => k == l && beq a b && beqEntries as bs
  | _, _ => false
end

instance : BEq Value := ⟨beq⟩

mutual
theorem beq_refl : ∀ v : Value, beq v v = true
  | .null => by simp [beq]
  | .bool _ => by simp [beq]
  | .number n => by simp [beq, Number.beq_refl n]
  | .string _ => by simp [beq]
  | .array a => by simp [beq, beqList_refl a]
  | .object o => by simp [beq, beqEntries_refl o]

theorem beqList_refl : ∀ a : List Value, beqList a a = true
  | [] => by simp [beqList]
  | v :: a => by simp [beqList, beq_refl v, beqList_refl a]

theorem beqEntries_refl : ∀ o : List (String × Value), beqEntries o o = true
  | [] => by simp [beqEntries]
  | (k, v) :: o => by simp [beqEntries, beq_refl v, beqEntries_refl o]
end

/-- Comparing with a string is exact. -/
@[simp] theorem beq_string_right {v : Value} {s : String} :
    (v == Value.string s) = true ↔ v = .string s := by
  cases v <;> simp [BEq.beq, beq]

/-! ## Equality

  Structural equality, which is finer than `beq`: it tells the two float zeros apart. -/

mutual
/-- Are the two values the same term. -/
def same : Value → Value → Bool
  | .null, .null => true
  | .bool a, .bool b => a == b
  | .number a, .number b => decide (a = b)
  | .string a, .string b => a == b
  | .array a, .array b => sameList a b
  | .object a, .object b => sameEntries a b
  | _, _ => false

def sameList : List Value → List Value → Bool
  | [], [] => true
  | a :: as, b :: bs => same a b && sameList as bs
  | _, _ => false

def sameEntries : List (String × Value) → List (String × Value) → Bool
  | [], [] => true
  | (k, a) :: as, (l, b) :: bs => k == l && same a b && sameEntries as bs
  | _, _ => false
end

mutual
theorem same_iff : ∀ a b : Value, same a b = true ↔ a = b
  | .null, b => by cases b <;> simp [same]
  | .bool _, b => by cases b <;> simp [same]
  | .number _, b => by cases b <;> simp [same]
  | .string _, b => by cases b <;> simp [same]
  | .array a, b => by
    cases b with
    | array b => simpa [same] using sameList_iff a b
    | _ => simp [same]
  | .object a, b => by
    cases b with
    | object b => simpa [same] using sameEntries_iff a b
    | _ => simp [same]

theorem sameList_iff : ∀ a b : List Value, sameList a b = true ↔ a = b
  | [], b => by cases b <;> simp [sameList]
  | v :: a, b => by
    cases b with
    | nil => simp [sameList]
    | cons w b => simp [sameList, same_iff v w, sameList_iff a b]

theorem sameEntries_iff : ∀ a b : List (String × Value), sameEntries a b = true ↔ a = b
  | [], b => by cases b <;> simp [sameEntries]
  | (k, v) :: a, b => by
    cases b with
    | nil => simp [sameEntries]
    | cons w b =>
      obtain ⟨l, w⟩ := w
      simp [sameEntries, same_iff v w, sameEntries_iff a b]
end

instance : DecidableEq Value := fun a b => decidable_of_iff _ (same_iff a b)

end Value

end PhReactor
