/-
  The daemon's log (`src/logrotate.rs`): one file that grows, and older generations beside it.

  Before a write that would make it too long the log is rotated: the oldest generation is removed,
  every other moves up by one, and the log becomes the first of them.  Each of these is a file
  operation of its own, so a failure or a crash may leave the generations with a gap, and the next
  rotation starts from there.

  1. `append` is the program, a step of the source a step of it.

  2. `Layout` says what the files hold: some of the writes so far, in order, each generation from
     the beginning of a write to the end of one.  It is kept by every operation
     (`Intact.remove`, `Intact.rename`, `Intact.write`), and so at every point of `append`.

  3. **Whatever fails, and wherever the daemon is killed, the files together are the END of what was
     written**, cut between two writes; there are never more of them, and none is longer than the
     limit or one write (`log_keeps_the_end`).

  4. Where nothing fails, the log has lost nothing, or has kept more than twice the limit
     (`log_keeps_twice_the_limit`).
-/
import Mathlib.Algebra.Group.Nat.Defs
import PhReactor.Lib.CrashProgram
import PhReactor.Lib.Segments

namespace PhReactor.LogRotate

open Lib

def maxBytes : ℕ := 10 * 1024 * 1024

def keepGenerations : ℕ := 3

/-! ## Files -/

/-- The files of the log directory, by name. -/
abbrev Fs := String → Option (List UInt8)

inductive LogOp where
  | metadata (p : String)
  | pathExists (p : String)
  | removeFile (p : String)
  | rename (src dst : String)
  /-- Open for appending, creating the file, and write. -/
  | write (p : String) (bytes : List UInt8)

abbrev LogOp.Reply : LogOp → Type
  | .metadata _ => Option ℕ
  | .pathExists _ => Bool
  | _ => Except String Unit

/-- What becomes of an operation that changes a file.  A write that fails may have written some of
    its bytes, once the file is open. -/
inductive Outcome where
  | ok
  | fails (error : String) (written : Option ℕ)
  deriving DecidableEq

def notFound : String := "No such file or directory (os error 2)"

/-- One operation.  The directory is the daemon's own: it can look at its files. -/
def perform (fs : Fs) : (o : LogOp) → Outcome → o.Reply × Fs
  | .metadata p, _ => ((fs p).map List.length, fs)
  | .pathExists p, _ => ((fs p).isSome, fs)
  | .removeFile _, .fails e _ => (.error e, fs)
  | .removeFile p, .ok =>
    match fs p with
    | some _ => (.ok (), Function.update fs p none)
    | none => (.error notFound, fs)
  | .rename _ _, .fails e _ => (.error e, fs)
  | .rename src dst, .ok =>
    match fs src with
    | some b => (.ok (), Function.update (Function.update fs src none) dst (some b))
    | none => (.error notFound, fs)
  | .write p bytes, .ok => (.ok (), Function.update fs p (some ((fs p).getD [] ++ bytes)))
  | .write _ _, .fails e none => (.error e, fs)
  | .write p bytes, .fails e (some n) =>
    (.error e, Function.update fs p (some ((fs p).getD [] ++ bytes.take n)))

abbrev LogProg := Prog LogOp LogOp.Reply

/-! ## The program -/

def gen (path : String) (n : ℕ) : String := path ++ "." ++ toString n

/-- The generations from `n` down to the first move up by one. -/
def shift (path : String) : ℕ → LogProg (Except String Unit)
  | 0 => .done (.ok ())
  | n + 1 => .call (.pathExists (gen path (n + 1))) fun (there : Bool) =>
    if there then
      .call (.rename (gen path (n + 1)) (gen path (n + 2))) fun
        | .ok _ => shift path n
        | .error e => .done (.error e)
    else shift path n

/-- Drop the oldest generation. -/
def dropOldest (path : String) : LogProg (Except String Unit) :=
  .call (.pathExists (gen path keepGenerations)) fun (there : Bool) =>
    if there then .call (.removeFile (gen path keepGenerations)) fun r => .done r
    else .done (.ok ())

/-- The log becomes the first generation. -/
def retire (path : String) : LogProg (Except String Unit) :=
  .call (.pathExists path) fun (there : Bool) =>
    if there then .call (.rename path (gen path 1)) fun r => .done r else .done (.ok ())

def rotate (path : String) : LogProg (Except String Unit) :=
  (dropOldest path).andThen fun _ => (shift path (keepGenerations - 1)).andThen fun _ =>
    retire path

/-- `u64::saturating_add`. -/
def saturatingAdd (a b : ℕ) : ℕ := min (a + b) (2 ^ 64 - 1)

/-- Open (or rotate) the log, and append. -/
def append (path : String) (bytes : List UInt8) : LogProg (Except String Unit) :=
  .call (.metadata path) fun (len : Option ℕ) =>
    (if maxBytes < saturatingAdd (len.getD 0) bytes.length then rotate path
      else .done (.ok ())).andThen fun _ =>
      .call (.write path bytes) fun r => .done r

/-- The end of the log, up to `max` bytes of it. -/
def tail (fs : Fs) (path : String) (max : Option ℕ) : Option (List UInt8) :=
  (fs path).map fun b => b.drop (b.length - min (max.getD b.length) b.length)

theorem maxBytes_lt_saturatingAdd {a b : ℕ} :
    maxBytes < saturatingAdd a b ↔ maxBytes < a + b := by
  unfold saturatingAdd maxBytes
  omega

/-! ## Slots -/

/-- The log, and the generations behind it. -/
def slot (path : String) (n : ℕ) : String := if n = 0 then path else gen path n

theorem slot_succ (path : String) (n : ℕ) : slot path (n + 1) = gen path (n + 1) :=
  if_neg (Nat.succ_ne_zero n)

theorem gen_inj {path : String} : ∀ {n m : ℕ}, n ≤ keepGenerations → m ≤ keepGenerations →
    gen path n = gen path m → n = m := by
  intro n m hn hm h
  have hdigits : ∀ i j : Fin (keepGenerations + 1), toString i.val = toString j.val → i = j := by
    decide
  have htext : toString n = toString m := by
    unfold gen at h
    exact String.append_right_inj _ |>.mp h
  have hfin := hdigits ⟨n, Nat.lt_succ_of_le hn⟩ ⟨m, Nat.lt_succ_of_le hm⟩ htext
  exact congrArg Fin.val hfin

theorem gen_ne (path : String) (n : ℕ) : gen path n ≠ path := by
  intro h
  have hlen := congrArg String.length h
  unfold gen at hlen
  rw [String.length_append, String.length_append] at hlen
  have hdot : (".": String).length = 1 := rfl
  omega

theorem slot_inj {path : String} {n m : ℕ} (hn : n ≤ keepGenerations) (hm : m ≤ keepGenerations) :
    slot path n = slot path m ↔ n = m := by
  refine ⟨fun h => ?_, fun h => by rw [h]⟩
  unfold slot at h
  by_cases hn0 : n = 0 <;> by_cases hm0 : m = 0
  · rw [hn0, hm0]
  · rw [if_pos hn0, if_neg hm0] at h
    exact absurd h.symm (gen_ne path m)
  · rw [if_neg hn0, if_pos hm0] at h
    exact absurd h (gen_ne path n)
  · rw [if_neg hn0, if_neg hm0] at h
    exact gen_inj hn hm h

/-! ## What the files hold -/

/-- The writes `h`: the first of them `dropped`, the rest in the files, a segment in each. -/
structure Layout (path : String) (fs : Fs) (h dropped : List (List UInt8))
    (seg : ℕ → List (List UInt8)) : Prop where
  files : ∀ n ≤ keepGenerations, (fs (slot path n)).getD [] = (seg n).flatten
  history : h = dropped ++ joined keepGenerations seg

/-- The files hold the end of `h`, none of them is longer than `limit`, and the other files are as
    they were in `fs₀`. -/
structure Intact (path : String) (fs₀ : Fs) (limit : ℕ) (h : List (List UInt8)) (fs : Fs) :
    Prop where
  layout : ∃ dropped seg, Layout path fs h dropped seg
  short : ∀ n ≤ keepGenerations, ((fs (slot path n)).getD []).length ≤ limit
  others : ∀ p, (∀ n ≤ keepGenerations, p ≠ slot path n) → fs p = fs₀ p

variable {path : String} {fs fs₀ : Fs} {limit n : ℕ} {h : List (List UInt8)}
  {b bytes : List UInt8}

theorem update_slot {c : Option (List UInt8)} {m : ℕ} (hn : n ≤ keepGenerations)
    (hm : m ≤ keepGenerations) :
    Function.update fs (slot path n) c (slot path m) = if m = n then c else fs (slot path m) := by
  by_cases heq : m = n
  · rw [if_pos heq, heq, Function.update_self]
  · rw [if_neg heq, Function.update_of_ne fun h => heq ((slot_inj hm hn).mp h)]

namespace Intact

/-- The oldest generation goes. -/
theorem remove (hi : Intact path fs₀ limit h fs) :
    Intact path fs₀ limit h (Function.update fs (slot path keepGenerations) none) := by
  obtain ⟨dropped, seg, hfiles, hhist⟩ := hi.layout
  refine ⟨⟨dropped ++ seg keepGenerations, Function.update seg keepGenerations [], ?_, ?_⟩, ?_, ?_⟩
  · intro m hm
    rw [update_slot (Nat.le_refl _) hm]
    by_cases heq : m = keepGenerations
    · rw [if_pos heq, heq, Function.update_self]
      rfl
    · rw [if_neg heq, Function.update_of_ne heq]
      exact hfiles m hm
  · rw [hhist, joined_clear, List.append_assoc]
  · intro m hm
    rw [update_slot (Nat.le_refl _) hm]
    split
    · exact Nat.zero_le _
    · exact hi.short m hm
  · intro p hp
    rw [Function.update_of_ne (hp _ (Nat.le_refl _))]
    exact hi.others p hp

/-- A generation moves up into a free name. -/
theorem rename (hi : Intact path fs₀ limit h fs) (hn : n < keepGenerations)
    (hfree : fs (slot path (n + 1)) = none) (hb : fs (slot path n) = some b) :
    Intact path fs₀ limit h
      (Function.update (Function.update fs (slot path n) none) (slot path (n + 1)) (some b)) := by
  obtain ⟨dropped, seg, hfiles, hhist⟩ := hi.layout
  have hat : ∀ m ≤ keepGenerations, Function.update (Function.update fs (slot path n) none)
      (slot path (n + 1)) (some b) (slot path m) =
        if m = n + 1 then some b else if m = n then none else fs (slot path m) := by
    intro m hm
    rw [update_slot hn hm, update_slot (Nat.le_of_lt hn) hm]
  refine ⟨⟨dropped, Function.update (Function.update seg n []) (n + 1) (seg (n + 1) ++ seg n), ?_,
    ?_⟩, ?_, ?_⟩
  · intro m hm
    rw [hat m hm]
    by_cases habove : m = n + 1
    · have hempty := hfiles (n + 1) hn
      have hmoved := hfiles n (Nat.le_of_lt hn)
      rw [hfree] at hempty
      rw [hb] at hmoved
      rw [if_pos habove, habove, Function.update_self, List.flatten_append, ← hempty, ← hmoved]
      rfl
    · rw [if_neg habove, Function.update_of_ne habove]
      by_cases heq : m = n
      · rw [if_pos heq, heq, Function.update_self]
        rfl
      · rw [if_neg heq, Function.update_of_ne heq]
        exact hfiles m hm
  · rw [hhist, joined_move seg hn]
  · intro m hm
    rw [hat m hm]
    have hshort := hi.short n (Nat.le_of_lt hn)
    rw [hb] at hshort
    split
    · exact hshort
    · split
      · exact Nat.zero_le _
      · exact hi.short m hm
  · intro p hp
    rw [Function.update_of_ne (hp _ hn), Function.update_of_ne (hp _ (Nat.le_of_lt hn))]
    exact hi.others p hp

/-- Bytes are written at the end of the log. -/
theorem write (hi : Intact path fs₀ limit h fs)
    (hroom : ((fs path).getD []).length + bytes.length ≤ limit) :
    Intact path fs₀ limit (h ++ [bytes])
      (Function.update fs path (some ((fs path).getD [] ++ bytes))) := by
  obtain ⟨dropped, seg, hfiles, hhist⟩ := hi.layout
  have hat : ∀ {c : Option (List UInt8)}, ∀ m ≤ keepGenerations,
      Function.update fs path c (slot path m) = if m = 0 then c else fs (slot path m) :=
    fun m hm => update_slot (n := 0) (Nat.zero_le _) hm
  have hlog : (fs path).getD [] = (seg 0).flatten := hfiles 0 (Nat.zero_le _)
  refine ⟨⟨dropped, Function.update seg 0 (seg 0 ++ [bytes]), ?_, ?_⟩, ?_, ?_⟩
  · intro m hm
    rw [hat m hm]
    by_cases heq : m = 0
    · rw [if_pos heq, heq, Function.update_self, List.flatten_append, ← hlog]
      simp
    · rw [if_neg heq, Function.update_of_ne heq]
      exact hfiles m hm
  · rw [hhist, joined_grow, List.append_assoc]
  · intro m hm
    rw [hat m hm]
    split
    · rw [Option.getD_some, List.length_append]
      exact hroom
    · exact hi.short m hm
  · intro p hp
    have hne : p ≠ path := hp 0 (Nat.zero_le _)
    rw [Function.update_of_ne hne]
    exact hi.others p hp

/-- A write of nothing. -/
theorem nothing (hi : Intact path fs₀ limit h fs) : Intact path fs₀ limit (h ++ [[]]) fs := by
  obtain ⟨dropped, seg, hfiles, hhist⟩ := hi.layout
  refine ⟨⟨dropped, Function.update seg 0 (seg 0 ++ [[]]), fun m hm => ?_, ?_⟩, hi.short,
    hi.others⟩
  · rw [hfiles m hm]
    by_cases heq : m = 0
    · rw [heq, Function.update_self, List.flatten_append]
      simp
    · rw [Function.update_of_ne heq]
  · rw [hhist, joined_grow, List.append_assoc]

end Intact

/-! ## At every point of the program -/

theorem always_dropOldest (hi : Intact path fs₀ limit h fs) :
    (dropOldest path).always perform (Intact path fs₀ limit h)
      (fun r t => Intact path fs₀ limit h t ∧
        (r = .ok () → t (slot path keepGenerations) = none)) fs := by
  have hslot : gen path keepGenerations = slot path keepGenerations := rfl
  unfold dropOldest
  rw [hslot]
  refine ⟨hi, fun c => ?_⟩
  show Prog.always perform _ _ (if (fs (slot path keepGenerations)).isSome then _ else _) fs
  cases hfile : fs (slot path keepGenerations) with
  | none => exact ⟨hi, fun _ => hfile⟩
  | some b =>
    refine ⟨hi, fun c => ?_⟩
    cases c with
    | fails e w => exact ⟨hi, fun hok => nomatch hok⟩
    | ok =>
      have hperform : perform fs (.removeFile (slot path keepGenerations)) .ok =
          (.ok (), Function.update fs (slot path keepGenerations) none) := by
        simp [perform, hfile]
      rw [hperform]
      exact ⟨hi.remove, fun _ => Function.update_self ..⟩

theorem always_shift : ∀ (n : ℕ) {fs : Fs}, n < keepGenerations → Intact path fs₀ limit h fs →
    fs (slot path (n + 1)) = none →
    (shift path n).always perform (Intact path fs₀ limit h)
      (fun r t => Intact path fs₀ limit h t ∧ (r = .ok () → t (slot path 1) = none)) fs := by
  intro n
  induction n with
  | zero => exact fun _ hi hfree => ⟨hi, fun _ => hfree⟩
  | succ n ih =>
    intro fs hn hi hfree
    unfold shift
    rw [← slot_succ, ← slot_succ]
    refine ⟨hi, fun c => ?_⟩
    show Prog.always perform _ _ (if (fs (slot path (n + 1))).isSome then _ else _) fs
    cases hfile : fs (slot path (n + 1)) with
    | none => exact ih (Nat.lt_of_succ_lt hn) hi hfile
    | some b =>
      refine ⟨hi, fun c => ?_⟩
      cases c with
      | fails e w => exact ⟨hi, fun hok => nomatch hok⟩
      | ok =>
        have hperform : perform fs (.rename (slot path (n + 1)) (slot path (n + 2))) .ok =
            (.ok (), Function.update (Function.update fs (slot path (n + 1)) none)
              (slot path (n + 2)) (some b)) := by
          simp [perform, hfile]
        rw [hperform]
        refine ih (Nat.lt_of_succ_lt hn) (hi.rename hn hfree hfile) ?_
        have habove := @update_slot path (Function.update fs (slot path (n + 1)) none) (n + 2)
          (some b) (n + 1) hn (Nat.le_of_lt hn)
        rw [if_neg (by omega)] at habove
        exact habove.trans (Function.update_self ..)

theorem always_retire (hi : Intact path fs₀ limit h fs) (hfree : fs (slot path 1) = none) :
    (retire path).always perform (Intact path fs₀ limit h)
      (fun r t => Intact path fs₀ limit h t ∧ (r = .ok () → t path = none)) fs := by
  have hslot : gen path 1 = slot path 1 := rfl
  unfold retire
  rw [hslot]
  refine ⟨hi, fun c => ?_⟩
  show Prog.always perform _ _ (if (fs path).isSome then _ else _) fs
  cases hfile : fs path with
  | none => exact ⟨hi, fun _ => hfile⟩
  | some b =>
    refine ⟨hi, fun c => ?_⟩
    cases c with
    | fails e w => exact ⟨hi, fun hok => nomatch hok⟩
    | ok =>
      have hperform : perform fs (.rename path (slot path 1)) .ok =
          (.ok (), Function.update (Function.update fs path none) (slot path 1) (some b)) := by
        simp [perform, hfile]
      rw [hperform]
      refine ⟨hi.rename (n := 0) (by decide) hfree hfile, fun _ => ?_⟩
      have hne : path ≠ slot path 1 := fun h => gen_ne path 1 h.symm
      exact (Function.update_of_ne hne _ _).trans (Function.update_self ..)

/-- **A rotation**, wherever it ends: the files hold what they held, and if it succeeds there is no
    log. -/
theorem always_rotate (hi : Intact path fs₀ limit h fs) :
    (rotate path).always perform (Intact path fs₀ limit h)
      (fun r t => Intact path fs₀ limit h t ∧ (r = .ok () → t path = none)) fs := by
  unfold rotate
  rw [Prog.always_andThen]
  refine Prog.always_mono (always_dropOldest hi) (fun _ ht => ht) ?_
  rintro r t ⟨hi, hfree⟩
  cases r with
  | error e => exact ⟨hi, fun hok => nomatch hok⟩
  | ok u =>
    dsimp only
    rw [Prog.always_andThen]
    refine Prog.always_mono (always_shift (keepGenerations - 1) (by decide) hi (hfree rfl))
      (fun _ ht => ht) ?_
    rintro r t ⟨hi, hfree⟩
    cases r with
    | error e => exact ⟨hi, fun hok => nomatch hok⟩
    | ok u => exact always_retire hi (hfree rfl)

theorem always_write (hi : Intact path fs₀ limit h fs)
    (hroom : ((fs path).getD []).length + bytes.length ≤ limit) :
    Prog.always perform (Intact path fs₀ limit h)
      (fun r t => ∃ piece, piece <+: bytes ∧ (r = .ok () → piece = bytes) ∧
        Intact path fs₀ limit (h ++ [piece]) t)
      (.call (.write path bytes) fun r => .done r : LogProg (Except String Unit)) fs := by
  refine ⟨hi, fun c => ?_⟩
  cases c with
  | ok => exact ⟨bytes, List.prefix_refl _, fun _ => rfl, hi.write hroom⟩
  | fails e w =>
    cases w with
    | none => exact ⟨[], List.nil_prefix, fun hok => (nomatch hok), hi.nothing⟩
    | some n =>
      refine ⟨bytes.take n, List.take_prefix _ _, fun hok => (nomatch hok), hi.write ?_⟩
      have hlen := List.length_take_le' n bytes
      omega

/-- **An append**, wherever it ends: the files hold what they held and a beginning of the bytes, all
    of them if it succeeds. -/
theorem always_append (hmax : maxBytes ≤ limit) (hbytes : bytes.length ≤ limit)
    (hi : Intact path fs₀ limit h fs) :
    (append path bytes).always perform (Intact path fs₀ limit h)
      (fun r t => ∃ piece, piece <+: bytes ∧ (r = .ok () → piece = bytes) ∧
        Intact path fs₀ limit (h ++ [piece]) t) fs := by
  refine ⟨hi, fun c => ?_⟩
  rw [Prog.always_andThen]
  show Prog.always perform _ _ (if maxBytes < saturatingAdd (((fs path).map List.length).getD 0)
    bytes.length then _ else _) fs
  by_cases hfull : maxBytes < saturatingAdd (((fs path).map List.length).getD 0) bytes.length
  · rw [if_pos hfull]
    refine Prog.always_mono (always_rotate hi) (fun _ ht => ht) ?_
    rintro r t ⟨hi, hgone⟩
    cases r with
    | error e => exact ⟨[], List.nil_prefix, fun hok => (nomatch hok), hi.nothing⟩
    | ok u =>
      refine always_write hi ?_
      rw [hgone rfl]
      simpa using hbytes
  · rw [if_neg hfull]
    refine always_write hi ?_
    rw [maxBytes_lt_saturatingAdd] at hfull
    have hlen : ((fs path).getD []).length = ((fs path).map List.length).getD 0 := by
      cases fs path <;> rfl
    omega

/-! ## Runs -/

/-- Appends one after the other, each with the outcomes of its operations; it has crashed where they
    end early. -/
def appendAll (path : String) : Fs → List (List UInt8 × List Outcome) →
    List (Option (Except String Unit)) × Fs
  | fs, [] => ([], fs)
  | fs, (bytes, cs) :: rest =>
    let (r, t) := (append path bytes).run perform cs fs
    let (rs, u) := appendAll path t rest
    (r.map Prod.fst :: rs, u)

/-- What an append has written: a beginning of its bytes, all of them if it says so. -/
def Written (w : (List UInt8 × List Outcome) × Option (Except String Unit)) (piece : List UInt8) :
    Prop :=
  piece <+: w.1.1 ∧ (w.2 = some (.ok ()) → piece = w.1.1)

theorem run_append (hmax : maxBytes ≤ limit) (hbytes : bytes.length ≤ limit)
    (hi : Intact path fs₀ limit h fs) (cs : List Outcome) :
    ∃ piece, Written ((bytes, cs), ((append path bytes).run perform cs fs).1.map Prod.fst) piece ∧
      Intact path fs₀ limit (h ++ [piece]) ((append path bytes).run perform cs fs).2 := by
  have hall := Prog.always_iff_run.mp (always_append hmax hbytes hi) cs
  cases hrun : (append path bytes).run perform cs fs with
  | mk r t =>
    rw [hrun] at hall
    cases r with
    | none => exact ⟨[], ⟨List.nil_prefix, fun hok => (nomatch hok)⟩, hall.nothing⟩
    | some ra =>
      obtain ⟨piece, hpre, hok, hi'⟩ := hall
      exact ⟨piece, ⟨hpre, fun h => hok (Option.some.inj h)⟩, hi'⟩

theorem run_appendAll (hmax : maxBytes ≤ limit) : ∀ (writes : List (List UInt8 × List Outcome))
    {fs : Fs} {h : List (List UInt8)}, (∀ w ∈ writes, w.1.length ≤ limit) →
    Intact path fs₀ limit h fs →
    ∃ pieces, List.Forall₂ Written (writes.zip (appendAll path fs writes).1) pieces ∧
      Intact path fs₀ limit (h ++ pieces) (appendAll path fs writes).2 := by
  intro writes
  induction writes with
  | nil =>
    intro fs h _ hi
    refine ⟨[], .nil, ?_⟩
    rw [List.append_nil]
    exact hi
  | cons w writes ih =>
    intro fs h hlong hi
    obtain ⟨piece, hpiece, hi'⟩ := run_append hmax (hlong w List.mem_cons_self) hi w.2
    obtain ⟨pieces, hpieces, hi''⟩ := ih (fun v hv => hlong v (List.mem_cons_of_mem _ hv)) hi'
    refine ⟨piece :: pieces, .cons hpiece hpieces, ?_⟩
    rw [List.append_assoc] at hi''
    exact hi''

theorem intact_new (hnew : ∀ n ≤ keepGenerations, fs₀ (slot path n) = none) :
    Intact path fs₀ limit [] fs₀ := by
  refine ⟨⟨[], fun _ => [], fun n hn => ?_, rfl⟩, fun n hn => ?_, fun _ _ => rfl⟩
  · rw [hnew n hn]
    rfl
  · rw [hnew n hn]
    exact Nat.zero_le _

theorem flatten_suffix {dropped : List (List UInt8)} {seg : ℕ → List (List UInt8)} :
    (seg 0).flatten <:+ (dropped ++ joined keepGenerations seg).flatten := by
  rw [show joined keepGenerations seg = seg 3 ++ (seg 2 ++ (seg 1 ++ seg 0)) from rfl]
  simp only [List.flatten_append, ← List.append_assoc]
  exact List.suffix_append _ _

/-- The generations from `n` down have moved up. -/
theorem eval_shift : ∀ (n : ℕ) {fs : Fs}, n < keepGenerations → fs (slot path (n + 1)) = none →
    ∃ t, (shift path n).eval perform .ok fs = (.ok (), t) ∧ t (slot path 1) = none ∧
      (∀ i, 1 ≤ i → i ≤ n → t (slot path (i + 1)) = fs (slot path i)) ∧
      t (slot path 0) = fs (slot path 0) ∧
      ∀ i ≤ keepGenerations, n + 1 < i → t (slot path i) = fs (slot path i) := by
  intro n
  induction n with
  | zero => exact fun _ hfree => ⟨_, rfl, hfree, fun i h₁ h₂ => by omega, rfl, fun _ _ _ => rfl⟩
  | succ n ih =>
    intro fs hn hfree
    unfold shift
    rw [← slot_succ, ← slot_succ]
    cases hfile : fs (slot path (n + 1)) with
    | none =>
      obtain ⟨t, heval, hone, hmoved, hlog, habove⟩ := ih (Nat.lt_of_succ_lt hn) hfile
      refine ⟨t, ?_, hone, fun i h₁ h₂ => ?_, hlog, fun i hi h => habove i hi (by omega)⟩
      · simp only [Prog.eval, perform, hfile, Option.isSome_none, Bool.false_eq_true, if_false]
        exact heval
      · by_cases heq : i = n + 1
        · rw [heq, habove (n + 2) hn (by omega), hfile]
          exact hfree
        · exact hmoved i h₁ (by omega)
    | some b =>
      have hat : ∀ m ≤ keepGenerations,
          Function.update (Function.update fs (slot path (n + 1)) none)
            (slot path (n + 2)) (some b) (slot path m) =
            if m = n + 2 then some b else if m = n + 1 then none else fs (slot path m) := by
        intro m hm
        rw [update_slot hn hm, update_slot (Nat.le_of_lt hn) hm]
      obtain ⟨t, heval, hone, hmoved, hlog, habove⟩ := @ih
        (Function.update (Function.update fs (slot path (n + 1)) none) (slot path (n + 2))
          (some b)) (Nat.lt_of_succ_lt hn)
        (by rw [hat _ (Nat.le_of_lt hn), if_neg (by omega), if_pos rfl])
      refine ⟨t, ?_, hone, fun i h₁ h₂ => ?_, ?_, fun i hi h => ?_⟩
      · simp only [Prog.eval, perform, hfile, Option.isSome_some, if_true]
        exact heval
      · by_cases heq : i = n + 1
        · rw [heq, habove (n + 2) hn (by omega), hat _ hn, if_pos rfl, hfile]
        · rw [hmoved i h₁ (by omega), hat _ (by omega), if_neg (by omega), if_neg heq]
      · rw [hlog, hat 0 (Nat.zero_le _), if_neg (by omega), if_neg (by omega)]
      · rw [habove i hi (by omega), hat i hi, if_neg (by omega), if_neg (by omega)]

theorem eval_dropOldest (fs : Fs) :
    ∃ t, (dropOldest path).eval perform .ok fs = (.ok (), t) ∧
      t (slot path keepGenerations) = none ∧ ∀ i < keepGenerations, t (slot path i) =
        fs (slot path i) := by
  have hslot : gen path keepGenerations = slot path keepGenerations := rfl
  unfold dropOldest
  rw [hslot]
  cases hfile : fs (slot path keepGenerations) with
  | none =>
    refine ⟨fs, ?_, hfile, fun _ _ => rfl⟩
    simp only [Prog.eval, perform, hfile, Option.isSome_none, Bool.false_eq_true, if_false]
  | some b =>
    refine ⟨Function.update fs (slot path keepGenerations) none, ?_, Function.update_self ..,
      fun i hi => ?_⟩
    · simp only [Prog.eval, perform, hfile, Option.isSome_some, if_true]
    · rw [update_slot (Nat.le_refl _) (Nat.le_of_lt hi), if_neg (Nat.ne_of_lt hi)]

/-- **A rotation in which nothing fails** moves every file up by one. -/
theorem eval_rotate (fs : Fs) :
    ∃ t, (rotate path).eval perform .ok fs = (.ok (), t) ∧ t (slot path 0) = none ∧
      ∀ i < keepGenerations, t (slot path (i + 1)) = fs (slot path i) := by
  obtain ⟨t₁, hdrop, hfree, hrest⟩ := @eval_dropOldest path fs
  obtain ⟨t₂, hshift, hone, hmoved, hlog, -⟩ := @eval_shift path (keepGenerations - 1) t₁
    (by decide) hfree
  have hslot : gen path 1 = slot path 1 := rfl
  have hretire : ∃ t, (retire path).eval perform .ok t₂ = (.ok (), t) ∧ t (slot path 0) = none ∧
      t (slot path 1) = t₂ (slot path 0) ∧
      ∀ i ≤ keepGenerations, 1 < i → t (slot path i) = t₂ (slot path i) := by
    unfold retire
    rw [hslot]
    cases hfile : t₂ path with
    | none =>
      refine ⟨t₂, ?_, hfile, hone.trans hfile.symm, fun _ _ _ => rfl⟩
      simp only [Prog.eval, perform, hfile, Option.isSome_none, Bool.false_eq_true, if_false]
    | some b =>
      have hat : ∀ m ≤ keepGenerations, Function.update (Function.update t₂ path none)
          (slot path 1) (some b) (slot path m) =
            if m = 1 then some b else if m = 0 then none else t₂ (slot path m) := by
        intro m hm
        rw [update_slot (by decide) hm]
        congr 1
        exact update_slot (n := 0) (Nat.zero_le _) hm
      refine ⟨_, ?_, hat 0 (Nat.zero_le _), (hat 1 (by decide)).trans hfile.symm,
        fun i hi h => ?_⟩
      · simp only [Prog.eval, perform, hfile, Option.isSome_some, if_true]
      · rw [hat i hi, if_neg (by omega), if_neg (by omega)]
  obtain ⟨t, hlast, hnone, hfirst, habove⟩ := hretire
  refine ⟨t, ?_, hnone, fun i hi => ?_⟩
  · unfold rotate Prog.andThen
    rw [Prog.eval_bind, hdrop]
    dsimp only
    rw [Prog.eval_bind, hshift]
    exact hlast
  · cases i with
    | zero => rw [hfirst, hlog, hrest 0 (by decide)]
    | succ i =>
      rw [habove (i + 2) hi (by omega), hmoved (i + 1) (by omega) (by omega), hrest (i + 1) hi]

/-- Every file is there from its first write on; before that write the file behind it would have
    become too long; and nothing has been dropped before the last generation was used. -/
structure Packed (path : String) (fs : Fs) (dropped : List (List UInt8))
    (seg : ℕ → List (List UInt8)) : Prop where
  there : ∀ n ≤ keepGenerations, fs (slot path n) = none ↔ seg n = []
  full : ∀ n < keepGenerations, seg (n + 1) ≠ [] →
    ∃ p rest, seg n = p :: rest ∧ maxBytes < (seg (n + 1)).flatten.length + p.length
  last : dropped ≠ [] → seg keepGenerations ≠ []

/-- Every segment moves up, and a new one starts with this write. -/
def movedUp (bytes : List UInt8) (seg : ℕ → List (List UInt8)) : ℕ → List (List UInt8)
  | 0 => [bytes]
  | n + 1 => seg n

/-- The limit is looked at once, at the start. -/
theorem eval_append_eq (bytes : List UInt8) (fs : Fs) :
    (append path bytes).eval perform .ok fs =
      ((if maxBytes < ((fs path).map List.length).getD 0 + bytes.length then rotate path
        else .done (.ok ())).andThen fun _ =>
          .call (.write path bytes) fun r => .done r : LogProg _).eval perform .ok fs := by
  have hcond := @maxBytes_lt_saturatingAdd (((fs path).map List.length).getD 0) bytes.length
  show ((if maxBytes < saturatingAdd (((fs path).map List.length).getD 0) bytes.length
    then rotate path else .done (.ok ())).andThen fun _ =>
      .call (.write path bytes) fun r => .done r : LogProg _).eval perform .ok fs = _
  rw [ite_congr (propext hcond) (fun _ => rfl) fun _ => rfl]

/-- **An append in which nothing fails.** -/
theorem eval_append {dropped : List (List UInt8)} {seg : ℕ → List (List UInt8)}
    (hl : Layout path fs h dropped seg) (hp : Packed path fs dropped seg) (bytes : List UInt8) :
    ∃ t dropped' seg', (append path bytes).eval perform .ok fs = (.ok (), t) ∧
      Layout path t (h ++ [bytes]) dropped' seg' ∧ Packed path t dropped' seg' := by
  have hcurrent : ((fs path).map List.length).getD 0 = (seg 0).flatten.length := by
    rw [← hl.files 0 (Nat.zero_le _)]
    show ((fs path).map List.length).getD 0 = ((fs path).getD []).length
    cases fs path <;> rfl
  have hwrite : ∀ {t : Fs} {c : List UInt8}, ∀ m ≤ keepGenerations, Function.update t path (some c)
      (slot path m) = if m = 0 then some c else t (slot path m) :=
    fun m hm => update_slot (n := 0) (Nat.zero_le _) hm
  by_cases hfull : maxBytes < (seg 0).flatten.length + bytes.length
  · -- the log becomes a generation, and starts anew
    obtain ⟨t, hrotate, hnone, hmoved⟩ := @eval_rotate path fs
    have hpath : t path = none := hnone
    refine ⟨Function.update t path (some bytes), dropped ++ seg keepGenerations, movedUp bytes seg,
      ?_, ⟨fun m hm => ?_, ?_⟩, ⟨fun m hm => ?_, fun n hn hne => ?_, fun hdrop => ?_⟩⟩
    · rw [eval_append_eq, if_pos (by rw [hcurrent]; exact hfull)]
      unfold Prog.andThen
      rw [Prog.eval_bind, hrotate]
      simp only [Prog.eval, perform, hpath, Option.getD_none, List.nil_append]
    · rw [hwrite m hm]
      cases m with
      | zero => simp [movedUp]
      | succ m =>
        rw [if_neg (Nat.succ_ne_zero m), hmoved m hm]
        exact hl.files m (Nat.le_of_lt hm)
    · have hshift : joined keepGenerations (movedUp bytes seg) = joined 2 seg ++ [bytes] :=
        joined_shift 2 fun n _ => rfl
      rw [hl.history, hshift,
        show joined keepGenerations seg = seg keepGenerations ++ joined 2 seg from rfl]
      simp only [List.append_assoc]
    · rw [hwrite m hm]
      cases m with
      | zero => simp [movedUp]
      | succ m =>
        rw [if_neg (Nat.succ_ne_zero m), hmoved m hm]
        exact hp.there m (Nat.le_of_lt hm)
    · cases n with
      | zero => exact ⟨bytes, [], rfl, hfull⟩
      | succ n => exact hp.full n (Nat.lt_of_succ_lt hn) hne
    · -- what is dropped now was in the last generation, and so is what follows it
      have hlast : seg keepGenerations ≠ [] := by
        intro hnil
        rw [hnil, List.append_nil] at hdrop
        exact hp.last hdrop hnil
      obtain ⟨p, rest, hseg, -⟩ := hp.full 2 (by decide) hlast
      show seg 2 ≠ []
      rw [hseg]
      exact List.cons_ne_nil _ _
  · refine ⟨Function.update fs path (some ((fs path).getD [] ++ bytes)), dropped,
      Function.update seg 0 (seg 0 ++ [bytes]), ?_, ⟨fun m hm => ?_, ?_⟩,
      ⟨fun m hm => ?_, fun n hn hne => ?_, fun hdrop => ?_⟩⟩
    · rw [eval_append_eq, if_neg (by rw [hcurrent]; exact hfull)]
      rfl
    · rw [hwrite m hm]
      by_cases heq : m = 0
      · have hlog : (fs path).getD [] = (seg 0).flatten := hl.files 0 (Nat.zero_le _)
        rw [if_pos heq, heq, Function.update_self, List.flatten_append, Option.getD_some, hlog]
        simp
      · rw [if_neg heq, Function.update_of_ne heq]
        exact hl.files m hm
    · rw [hl.history, joined_grow, List.append_assoc]
    · rw [hwrite m hm]
      by_cases heq : m = 0
      · rw [if_pos heq, heq, Function.update_self]
        simp
      · rw [if_neg heq, Function.update_of_ne heq]
        exact hp.there m hm
    · rw [Function.update_of_ne (Nat.succ_ne_zero n)] at hne ⊢
      obtain ⟨p, rest, hseg, hlen⟩ := hp.full n hn hne
      by_cases heq : n = 0
      · subst heq
        exact ⟨p, rest ++ [bytes], by rw [Function.update_self, hseg]; rfl, hlen⟩
      · exact ⟨p, rest, by rw [Function.update_of_ne heq, hseg], hlen⟩
    · rw [Function.update_of_ne (by decide)]
      exact hp.last hdrop

/-- The log after appends in which nothing fails. -/
def written (path : String) (fs : Fs) (writes : List (List UInt8)) : Fs :=
  writes.foldl (fun fs bytes => ((append path bytes).eval perform .ok fs).2) fs

theorem written_packed : ∀ (writes : List (List UInt8)) {fs : Fs} {h dropped : List (List UInt8)}
    {seg : ℕ → List (List UInt8)}, Layout path fs h dropped seg → Packed path fs dropped seg →
    ∃ dropped' seg', Layout path (written path fs writes) (h ++ writes) dropped' seg' ∧
      Packed path (written path fs writes) dropped' seg' := by
  intro writes
  induction writes with
  | nil =>
    intro fs h dropped seg hl hp
    rw [List.append_nil]
    exact ⟨dropped, seg, hl, hp⟩
  | cons bytes writes ih =>
    intro fs h dropped seg hl hp
    obtain ⟨t, dropped', seg', heval, hl', hp'⟩ := eval_append hl hp bytes
    obtain ⟨dropped'', seg'', hl'', hp''⟩ := ih hl' hp'
    refine ⟨dropped'', seg'', ?_⟩
    rw [List.append_assoc] at hl''
    unfold written
    rw [List.foldl_cons, heval]
    exact ⟨hl'', hp''⟩

/-- **Where nothing fails, the log has lost nothing, or holds more than twice the limit.**  All the
    writes are there but for the `dropped` ones at the beginning. -/
theorem log_keeps_twice_the_limit (path : String) {fs₀ : Fs}
    (hnew : ∀ n ≤ keepGenerations, fs₀ (slot path n) = none) (writes : List (List UInt8)) :
    ∃ dropped seg, Layout path (written path fs₀ writes) writes dropped seg ∧
      (dropped = [] ∨ 2 * maxBytes < (joined keepGenerations seg).flatten.length) := by
  have hl : Layout path fs₀ [] [] fun _ => [] := ⟨fun n hn => by rw [hnew n hn]; rfl, rfl⟩
  have hp : Packed path fs₀ [] fun _ => [] :=
    ⟨fun n hn => iff_of_true (hnew n hn) rfl, fun _ _ h => absurd rfl h, fun h => absurd rfl h⟩
  obtain ⟨dropped, seg, hl', hp'⟩ := written_packed writes hl hp
  refine ⟨dropped, seg, hl', ?_⟩
  by_cases hdrop : dropped = []
  · exact Or.inl hdrop
  · right
    have hthree := hp'.last hdrop
    obtain ⟨p₂, rest₂, hseg₂, hlen₂⟩ := hp'.full 2 (by decide) hthree
    have htwo : seg 2 ≠ [] := by rw [hseg₂]; exact List.cons_ne_nil _ _
    obtain ⟨p₁, rest₁, hseg₁, -⟩ := hp'.full 1 (by decide) htwo
    have hone : seg 1 ≠ [] := by rw [hseg₁]; exact List.cons_ne_nil _ _
    obtain ⟨p₀, rest₀, hseg₀, hlen₀⟩ := hp'.full 0 (by decide) hone
    have hle₂ : p₂.length ≤ (seg 2).flatten.length := by
      rw [hseg₂, List.flatten_cons, List.length_append]
      exact Nat.le_add_right _ _
    have hle₀ : p₀.length ≤ (seg 0).flatten.length := by
      rw [hseg₀, List.flatten_cons, List.length_append]
      exact Nat.le_add_right _ _
    rw [show joined keepGenerations seg = seg 3 ++ (seg 2 ++ (seg 1 ++ seg 0)) from rfl]
    simp only [List.flatten_append, List.length_append]
    simp only [Nat.reduceAdd] at hlen₂ hlen₀
    omega

theorem two_lines_are_kept : ∃ dropped seg, Layout "reactor.log"
    (written "reactor.log" (fun _ => none) [[104, 105, 10], [104, 111, 10]])
      [[104, 105, 10], [104, 111, 10]] dropped seg ∧
    (dropped = [] ∨ 2 * maxBytes < (joined keepGenerations seg).flatten.length) :=
  log_keeps_twice_the_limit "reactor.log" (fun _ _ => rfl) _

end PhReactor.LogRotate
