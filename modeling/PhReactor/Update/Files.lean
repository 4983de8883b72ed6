/-
  The file operations of an update, and how they FAIL.

  A path is the list of its components; links are not followed.  Each operation is one step, and its
  outcome is not the program's choice: it succeeds, it reports an error, or (a write) it reports
  success and leaves something else on disk.  A write that fails leaves anything, and `rename` is
  atomic.

  The blob store (`src/blob/mod.rs`) is a directory with one file per chunk.  Looking for chunks and
  reassembling a blob only read (`always_missing`, `always_get`), and what comes out has been found
  in the files.
-/
import PhReactor.Lib.CrashProgram
import PhReactor.Update.Release
import Mathlib.Logic.Function.Basic

namespace PhReactor.Update

open Lib

/-! ## Paths -/

/-- The components of a path; the root directory is `"/"`. -/
abbrev Path := List String

namespace Path

/-- `Path::parent`. -/
def parent? (p : Path) : Option Path := if p = [] ∨ p = ["/"] then none else some p.dropLast

/-- `Path::join`, with a single name. -/
def join (p : Path) (name : String) : Path := p ++ [name]

/-- Append to the last component. -/
def withSuffix (p : Path) (suffix : String) : Path :=
  match p.getLast? with
  | none => [suffix]
  | some l => if l = "/" then p ++ [suffix] else p.dropLast ++ [l ++ suffix]

/-- `Path::display`. -/
def display (p : Path) : String :=
  match p with
  | "/" :: rest => "/" ++ String.intercalate "/" rest
  | p => String.intercalate "/" p

theorem withSuffix_ne {suffix : String} (h : suffix ≠ "") (p : Path) : p.withSuffix suffix ≠ p := by
  unfold Path.withSuffix
  cases hl : p.getLast? with
  | none =>
    rw [List.getLast?_eq_none_iff] at hl
    rw [hl]
    exact List.cons_ne_nil _ _
  | some l =>
    dsimp only
    split
    · intro heq
      have hlen := congrArg List.length heq
      simp at hlen
    · intro heq
      have hlast := congrArg List.getLast? heq
      rw [hl, List.getLast?_concat] at hlast
      have hlen := congrArg String.length (Option.some.inj hlast)
      rw [String.length_append] at hlen
      exact h (String.length_eq_zero_iff.mp (by omega))

end Path

/-! ## Operations -/

structure File where
  bytes : List UInt8
  mode : ℕ
  deriving DecidableEq

abbrev Fs := Path → Option File

inductive FileOp where
  | write (p : Path) (bytes : List UInt8)
  | read (p : Path)
  | removeFile (p : Path)
  | createDirAll (p : Path)
  | setPermissions (p : Path) (mode : ℕ)
  | fileExists (p : Path)
  | rename (src dst : Path)

abbrev FileOp.Reply : FileOp → Type
  | .read _ => Except String (List UInt8)
  | .fileExists _ => Bool
  | _ => Except String Unit

/-- What becomes of an operation. -/
inductive Outcome where
  | ok
  /-- It reports an error; a write leaves this behind. -/
  | fails (error : String) (left : Option File)
  /-- It reports success; a write leaves this behind. -/
  | slips (left : Option File)
  deriving DecidableEq

def notFound : String := "No such file or directory (os error 2)"

/-- One operation: its reply, and the files after it. -/
def perform (fs : Fs) : (o : FileOp) → Outcome → o.Reply × Fs
  | .write p bytes, .ok =>
    (.ok (), Function.update fs p (some ⟨bytes, ((fs p).map File.mode).getD 0o644⟩))
  | .write p _, .fails e left => (.error e, Function.update fs p left)
  | .write p _, .slips left => (.ok (), Function.update fs p left)
  | .read _, .fails e _ => (.error e, fs)
  | .read p, _ =>
    match fs p with
    | some f => (.ok f.bytes, fs)
    | none => (.error notFound, fs)
  | .removeFile _, .fails e _ => (.error e, fs)
  | .removeFile p, _ =>
    match fs p with
    | some _ => (.ok (), Function.update fs p none)
    | none => (.error notFound, fs)
  | .createDirAll _, .fails e _ => (.error e, fs)
  | .createDirAll _, _ => (.ok (), fs)
  | .setPermissions _ _, .fails e _ => (.error e, fs)
  | .setPermissions p mode, _ =>
    match fs p with
    | some f => (.ok (), Function.update fs p (some { f with mode }))
    | none => (.error notFound, fs)
  | .fileExists _, .fails _ _ => (false, fs)
  | .fileExists p, _ => ((fs p).isSome, fs)
  | .rename _ _, .fails e _ => (.error e, fs)
  | .rename src dst, _ =>
    match fs src with
    | some f => (.ok (), Function.update (Function.update fs src none) dst (some f))
    | none => (.error notFound, fs)

/-- The paths at which an operation may change what is there. -/
def FileOp.paths : FileOp → List Path
  | .write p _ => [p]
  | .removeFile p => [p]
  | .setPermissions p _ => [p]
  | .rename src dst => [src, dst]
  | _ => []

/-- **Frame.** -/
theorem perform_other {o : FileOp} {q : Path} (h : q ∉ o.paths) (fs : Fs) (c : Outcome) :
    (perform fs o c).2 q = fs q := by
  cases o with
  | write p bytes =>
    have hne : q ≠ p := fun heq => h (List.mem_singleton.mpr heq)
    cases c <;> exact Function.update_of_ne hne _ _
  | removeFile p =>
    have hne : q ≠ p := fun heq => h (List.mem_singleton.mpr heq)
    cases c <;> cases hf : fs p <;> simp [perform, hf, hne]
  | setPermissions p mode =>
    have hne : q ≠ p := fun heq => h (List.mem_singleton.mpr heq)
    cases c <;> cases hf : fs p <;> simp [perform, hf, hne]
  | rename src dst =>
    have hsrc : q ≠ src := fun heq => h (by rw [heq]; exact List.mem_cons_self)
    have hdst : q ≠ dst := fun heq => h (by rw [heq]; simp [FileOp.paths])
    cases c <;> cases hf : fs src <;> simp [perform, hf, hsrc, hdst]
  | read p => cases c <;> cases hf : fs p <;> simp [perform, hf]
  | createDirAll p => cases c <;> rfl
  | fileExists p => cases c <;> rfl

/-! What each operation can answer. -/

theorem perform_read (fs : Fs) (p : Path) (c : Outcome) :
    (∃ e, perform fs (.read p) c = (.error e, fs)) ∨
      ∃ f, fs p = some f ∧ perform fs (.read p) c = (.ok f.bytes, fs) := by
  cases c <;> cases hf : fs p <;> simp [perform, hf]

theorem perform_fileExists (fs : Fs) (p : Path) (c : Outcome) :
    perform fs (.fileExists p) c = (false, fs) ∨
      (fs p).isSome = true ∧ perform fs (.fileExists p) c = (true, fs) := by
  cases c <;> cases hf : fs p <;> simp [perform, hf]

theorem perform_createDirAll (fs : Fs) (p : Path) (c : Outcome) :
    (perform fs (.createDirAll p) c).2 = fs := by cases c <;> rfl

theorem perform_setPermissions (fs : Fs) (p : Path) (mode : ℕ) (c : Outcome) :
    (∃ e, perform fs (.setPermissions p mode) c = (.error e, fs)) ∨
      ∃ f, fs p = some f ∧ perform fs (.setPermissions p mode) c =
        (.ok (), Function.update fs p (some { f with mode })) := by
  cases c <;> cases hf : fs p <;> simp [perform, hf]

theorem perform_rename (fs : Fs) (src dst : Path) (c : Outcome) :
    (∃ e, perform fs (.rename src dst) c = (.error e, fs)) ∨
      ∃ f, fs src = some f ∧ perform fs (.rename src dst) c =
        (.ok (), Function.update (Function.update fs src none) dst (some f)) := by
  cases c <;> cases hf : fs src <;> simp [perform, hf]

/-- A program over the files. -/
abbrev FileProg := Prog FileOp FileOp.Reply

/-! ## The blob store -/

/-- A directory of chunks, one file per chunk, named by its hash. -/
abbrev BlobStore := Path

namespace BlobStore

def chunkPath (dir : BlobStore) (h : Hash32) : Path := Path.join dir (hashText h ++ ".chunk")

/-- The chunks this store does not have yet, of those not `seen` before. -/
def missing (dir : BlobStore) : List Hash32 → List Hash32 → FileProg (List Hash32)
  | [], _ => .done []
  | h :: rest, seen =>
    if h ∈ seen then missing dir rest seen
    else .call (.fileExists (dir.chunkPath h)) fun (there : Bool) =>
      (missing dir rest (h :: seen)).bind fun more => .done (if there then more else h :: more)

/-- The chunks one after the other, behind `out`. -/
def concat (dir : BlobStore) : List Hash32 → List UInt8 → FileProg (Except String (List UInt8))
  | [], out => .done (.ok out)
  | h :: rest, out => .call (.read (dir.chunkPath h)) fun
    | .ok c => concat dir rest (out ++ c)
    | .error _ => .done (.error ("missing chunk " ++ hashText h))

/-- The bytes of some chunks, when they are all there. -/
def chunksIn (dir : BlobStore) (fs : Fs) : List Hash32 → Option (List UInt8)
  | [] => some []
  | h :: rest => do
    let f ← fs (dir.chunkPath h)
    let more ← chunksIn dir fs rest
    some (f.bytes ++ more)

/-! ### Reading leaves the files alone -/

variable {dir : BlobStore} {fs : Fs}

theorem always_missing (hs seen : List Hash32) :
    (missing dir hs seen).always perform (· = fs) (fun _ t => t = fs) fs := by
  induction hs generalizing seen with
  | nil => rfl
  | cons h hs ih =>
    unfold missing
    split
    · exact ih seen
    · refine ⟨rfl, fun c => ?_⟩
      have hsame : (perform fs (.fileExists (dir.chunkPath h)) c).2 = fs := by cases c <;> rfl
      rw [hsame, Prog.always_bind]
      exact ih (h :: seen)

/-- When nothing goes wrong, nothing that is there is missing. -/
theorem eval_missing {hs : List Hash32} (hall : (chunksIn dir fs hs).isSome = true)
    (seen : List Hash32) : (missing dir hs seen).eval perform .ok fs = ([], fs) := by
  induction hs generalizing seen with
  | nil => rfl
  | cons h hs ih =>
    cases hf : fs (dir.chunkPath h) with
    | none =>
      simp only [chunksIn, hf] at hall
      cases hall
    | some f =>
      have hrest : (chunksIn dir fs hs).isSome = true := by
        cases hc : chunksIn dir fs hs with
        | none =>
          simp only [chunksIn, hf, hc] at hall
          cases hall
        | some b => rfl
      unfold missing
      split
      · exact ih hrest seen
      · have hok : perform fs (.fileExists (dir.chunkPath h)) .ok = (true, fs) := by
          simp [perform, hf]
        show ((missing dir hs (h :: seen)).bind fun more => Prog.done
          (if (perform fs (.fileExists (dir.chunkPath h)) .ok).1 = true then more
            else h :: more)).eval perform .ok
          (perform fs (.fileExists (dir.chunkPath h)) .ok).2 = _
        rw [hok, Prog.eval_bind, ih hrest]
        rfl

/-- What comes out has been found in the files. -/
theorem always_concat (hs : List Hash32) (out : List UInt8) :
    (concat dir hs out).always perform (· = fs) (fun r t => t = fs ∧ ∀ o, r = .ok o →
      ∃ b, chunksIn dir fs hs = some b ∧ o = out ++ b) fs := by
  induction hs generalizing out with
  | nil =>
    refine ⟨rfl, fun o ho => ⟨[], rfl, ?_⟩⟩
    rw [List.append_nil]
    exact (Except.ok.inj ho).symm
  | cons h hs ih =>
    refine ⟨rfl, fun c => ?_⟩
    rcases perform_read fs (dir.chunkPath h) c with ⟨e, hread⟩ | ⟨f, hf, hread⟩
    · rw [hread]
      exact ⟨rfl, fun o ho => by cases ho⟩
    · rw [hread]
      refine Prog.always_mono (ih (out ++ f.bytes)) (fun _ h => h) fun r t ht => ⟨ht.1, ?_⟩
      intro o ho
      obtain ⟨b, hb, rfl⟩ := ht.2 o ho
      refine ⟨f.bytes ++ b, ?_, by simp⟩
      simp [chunksIn, hf, hb]

theorem eval_concat {hs : List Hash32} {b : List UInt8} (hall : chunksIn dir fs hs = some b)
    (out : List UInt8) : (concat dir hs out).eval perform .ok fs = (.ok (out ++ b), fs) := by
  induction hs generalizing out b with
  | nil =>
    obtain rfl : [] = b := Option.some.inj hall
    rw [List.append_nil]
    rfl
  | cons h hs ih =>
    simp only [chunksIn, Option.bind_eq_bind, Option.bind_eq_some_iff] at hall
    obtain ⟨f, hf, more, hmore, hb⟩ := hall
    have hread : perform fs (.read (dir.chunkPath h)) .ok = (.ok f.bytes, fs) := by
      simp [perform, hf]
    unfold concat Prog.eval
    rw [hread]
    refine (ih hmore (out ++ f.bytes)).trans ?_
    rw [← Option.some.inj hb, List.append_assoc]

/-! ### Whole blobs -/

section

variable [Primitives]

/-- What the reassembled bytes of a blob must satisfy. -/
def verify (r : BlobRef) (out : List UInt8) : Except String (List UInt8) :=
  if out.length % 2 ^ 64 ≠ r.size then
    .error ("reassembled " ++ toString out.length ++ " bytes, expected " ++ toString r.size.val)
  else if Primitives.sha256 out ≠ r.hash then
    .error ("reassembled blob does not match its hash (want " ++ hashText r.hash ++ ", got " ++
      hashText (Primitives.sha256 out) ++ ")")
  else .ok out

/-- Reassembles a blob, verifying the result against its hash. -/
def get (dir : BlobStore) (r : BlobRef) : FileProg (Except String (List UInt8)) :=
  (concat dir r.chunks []).bind fun
    | .ok out => .done (verify r out)
    | .error e => .done (.error e)

end

end BlobStore

end PhReactor.Update
