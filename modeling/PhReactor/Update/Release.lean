/-
  Releases (`src/update/mod.rs`).

  A release names the platform it was built for, its version and its binary, as a content-addressed
  blob.  Whether it is an upgrade is decided on the version TEXT: numbers between dots, compared
  from the left; a text that is anything else compares with nothing.
-/
import PhReactor.Action

namespace PhReactor.Update

/-- What a node reads of a published build. -/
structure Release where
  version : String
  platform : String
  binary : BlobRef
  deriving DecidableEq

/-! ## Versions -/

/-- Unicode `White_Space`, which `str::trim` cuts off. -/
def isWhiteSpace (c : Char) : Bool :=
  (9 ≤ c.toNat && c.toNat ≤ 13) || c.toNat == 0x20 || c.toNat == 0x85 || c.toNat == 0xA0 ||
    c.toNat == 0x1680 || (0x2000 ≤ c.toNat && c.toNat ≤ 0x200A) || c.toNat == 0x2028 ||
    c.toNat == 0x2029 || c.toNat == 0x202F || c.toNat == 0x205F || c.toNat == 0x3000

def trim (s : List Char) : List Char :=
  ((s.dropWhile isWhiteSpace).reverse.dropWhile isWhiteSpace).reverse

/-- `str::parse::<u64>`, on a text without a sign. -/
def parseU64 (s : List Char) : Option ℕ :=
  if s.isEmpty || !s.all Char.isDigit then none
  else
    let n := s.foldl (fun n c => n * 10 + (c.toNat - '0'.toNat)) 0
    if n < 2 ^ 64 then some n else none

/-- The numbers of a version.  Pre-release and build metadata are not understood. -/
def parse (s : String) : Option (List ℕ) :=
  let core := (trim s.toList).dropWhile fun c => c == 'v'
  if core.contains '-' || core.contains '+' || core.isEmpty then none
  else (core.splitOn '.').mapM parseU64

/-- The shorter version is padded with zeros. -/
def resize (n : ℕ) (x : List ℕ) : List ℕ := x ++ List.replicate (n - x.length) 0

/-- Compares two dotted numeric versions. -/
def compare (a b : String) : Option Ordering := do
  let x ← parse a
  let y ← parse b
  let n := max x.length y.length
  some (List.compareLex Ord.compare (resize n x) (resize n y))

/-- Does the release supersede `current`: strictly greater, never equal. -/
def Release.isNewerThan (r : Release) (current : String) : Bool :=
  compare r.version current == some .gt

def Release.runsOn (r : Release) (platform : String) : Bool := r.platform == platform

end PhReactor.Update
