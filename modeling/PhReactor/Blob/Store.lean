/-
  The blob store (`src/blob/mod.rs`).

  A directory with one file per chunk, named by the SHA-256 of its bytes; a blob is a list of
  chunks, the size of the whole and its hash.  Chunks come from anyone, in any order, and are
  shared between blobs.

  1. What one operation does to the chunk files is `putChunk_cases` and `getElem?_gc`: a put adds
     the bytes under their own hash or nothing at all, a collection takes away and adds nothing.

  2. Hence in every run from an empty store a chunk hashes to its name and was offered to the store
     (`sound_run`), and the chunks of a blob that every collection knows stay (`run_keeps`).

  3. What goes in as a blob comes out as it was: cutting it up and putting the chunks together is
     the identity (`Lib/Pieces.lean`), if no two texts of the run share a hash.  All of it is
     `blob_store_sound_and_complete`.

  A write of the temporary file may fail and leave anything there; `rename` is atomic.  A `Vec`
  holds at most `isize::MAX` bytes, and panics beyond that.
-/
import PhReactor.Lib.Pieces
import PhReactor.Lib.Machine
import PhReactor.Sample
import PhReactor.Update.Files

set_option linter.unusedSectionVars false

namespace PhReactor.Blob

/-! ## The store -/

/-- Bytes per chunk. -/
def chunkBytes : ℕ := 256 * 1024

/-- The capacity that a `Vec<u8>` cannot exceed. -/
def isizeMax : ℕ := 2 ^ 63 - 1

/-- The directory: the files of chunks, and the unfinished ones, by the hash in their names. -/
structure BlobStore where
  dir : String
  chunks : Std.ExtTreeMap Hash32 (List UInt8)
  partials : Std.ExtTreeMap Hash32 (List UInt8)

/-- How the file system answers while one chunk is stored. -/
inductive ChunkIo where
  | ok
  /-- The write of the temporary file fails, and leaves that much. -/
  | writeFails (left : Option (List UInt8)) (error : String)
  | renameFails (error : String)

/-- How it answers a collection: whether the directory can be read, and for which chunks the entry
    is read and the file removed. -/
structure GcIo where
  readDir : Except String Unit
  removes : Hash32 → Bool

namespace BlobStore

/-- The store that `open` makes of a new directory. -/
def empty (dir : String) : BlobStore := ⟨dir, ∅, ∅⟩

def hasChunk (s : BlobStore) (h : Hash32) : Bool := s.chunks.contains h

def getChunk (s : BlobStore) (h : Hash32) : Option (List UInt8) := s.chunks[h]?

/-- The temporary name of a chunk. -/
def partialPath (s : BlobStore) (h : Hash32) : String := s.dir ++ "/" ++ hashText h ++ ".partial"

/-- The chunks this store does not have yet, of those not `seen` before. -/
def missingFrom (s : BlobStore) : List Hash32 → List Hash32 → List Hash32
  | [], _ => []
  | h :: rest, seen =>
    if h ∈ seen then missingFrom s rest seen
    else if s.hasChunk h then missingFrom s rest (h :: seen)
    else h :: missingFrom s rest (h :: seen)

/-- The chunks of `r` this store does not have yet: what to ask peers for. -/
def missing (s : BlobStore) (r : BlobRef) : List Hash32 := s.missingFrom r.chunks []

def isComplete (s : BlobStore) (r : BlobRef) : Bool := r.chunks.all s.hasChunk

/-- The chunks one after the other, behind `out`.  A vector that grows too long panics. -/
def concat (s : BlobStore) : List Hash32 → List UInt8 → Option (Except String (List UInt8))
  | [], out => some (.ok out)
  | h :: rest, out =>
    match s.getChunk h with
    | none => some (.error ("missing chunk " ++ hashText h))
    | some c => if isizeMax < (out ++ c).length then none else concat s rest (out ++ c)

/-- Deletes chunks not referenced by any blob in `keep`. -/
def gc (s : BlobStore) (keep : List BlobRef) (io : GcIo) : BlobStore × Except String ℕ :=
  let live := keep.flatMap BlobRef.chunks
  match io.readDir with
  | .error e => (s, .error ("reading " ++ s.dir ++ ": " ++ e))
  | .ok () =>
    let removed := s.chunks.keys.filter fun h => !live.contains h && io.removes h
    ({ s with chunks := removed.foldl (fun m h => m.erase h) s.chunks }, .ok removed.length)

section

variable [Primitives]

/-- Stores a chunk, verifying it against the hash it claims to be. -/
def putChunk (s : BlobStore) (claimed : Hash32) (bytes : List UInt8) (io : ChunkIo) :
    BlobStore × Except String Unit :=
  let actual := Primitives.sha256 bytes
  if actual ≠ claimed then
    (s, .error ("chunk does not match its hash (claimed " ++ hashText claimed ++ ", got " ++
      hashText actual ++ ")"))
  else if s.hasChunk claimed then (s, .ok ()) -- content-addressed: identical by definition
  else
    match io with
    | .writeFails none e =>
      ({ s with partials := s.partials.erase claimed },
        .error ("writing " ++ s.partialPath claimed ++ ": " ++ e))
    | .writeFails (some left) e =>
      ({ s with partials := s.partials.insert claimed left },
        .error ("writing " ++ s.partialPath claimed ++ ": " ++ e))
    | .renameFails e =>
      ({ s with partials := s.partials.insert claimed bytes },
        .error ("renaming into place: " ++ e))
    | .ok =>
      ({ s with chunks := s.chunks.insert claimed bytes, partials := s.partials.erase claimed },
        .ok ())

end

end BlobStore

section

variable [Primitives]

/-- `BlobRef::of`: describes `bytes` without storing anything. -/
def refOf (bytes : List UInt8) : BlobRef where
  hash := Primitives.sha256 bytes
  size := Fin.ofNat _ bytes.length
  chunks := (Lib.pieces chunkBytes bytes).map Primitives.sha256

namespace BlobStore

/-- The loop of `put`; the `i`-th chunk claims the `i`-th hash of the reference, its own. -/
def putChunks (s : BlobStore) (io : ℕ → ChunkIo) : List (List UInt8) → ℕ →
    BlobStore × Except String Unit
  | [], _ => (s, .ok ())
  | c :: rest, i =>
    match s.putChunk (Primitives.sha256 c) c (io i) with
    | (s, .error e) => (s, .error e)
    | (s, .ok ()) => putChunks s io rest (i + 1)

/-- Splits `bytes` into chunks and stores them. -/
def put (s : BlobStore) (bytes : List UInt8) (io : ℕ → ChunkIo) :
    BlobStore × Except String BlobRef :=
  match s.putChunks io (Lib.pieces chunkBytes bytes) 0 with
  | (s, .error e) => (s, .error e)
  | (s, .ok ()) => (s, .ok (refOf bytes))

/-- Reassembles a blob, verifying the result against its hash.  The vector is allocated for the
    size that the reference names. -/
def get (s : BlobStore) (r : BlobRef) : Option (Except String (List UInt8)) :=
  if isizeMax < r.size.val then none
  else
    (s.concat r.chunks []).map fun out => out.bind (Update.BlobStore.verify r)

/-! ## What one operation does -/

/-- **A chunk is stored**, or nothing changes but for unfinished files. -/
theorem putChunk_cases (s : BlobStore) (claimed : Hash32) (bytes : List UInt8) (io : ChunkIo) :
    ((s.putChunk claimed bytes io).1.chunks = s.chunks ∧
      ((s.putChunk claimed bytes io).2.isOk = true →
        Primitives.sha256 bytes = claimed ∧ s.hasChunk claimed = true)) ∨
    (Primitives.sha256 bytes = claimed ∧ s.hasChunk claimed = false ∧
      (s.putChunk claimed bytes io).1.chunks = s.chunks.insert claimed bytes ∧
      (s.putChunk claimed bytes io).2 = .ok ()) := by
  unfold putChunk
  dsimp only
  split
  · exact Or.inl ⟨rfl, fun h => by cases h⟩
  · next hhash =>
    split
    · next hthere => exact Or.inl ⟨rfl, fun _ => ⟨not_not.mp hhash, hthere⟩⟩
    · next hnew =>
      cases io with
      | ok => exact Or.inr ⟨not_not.mp hhash, Bool.eq_false_iff.mpr hnew, rfl, rfl⟩
      | writeFails left e => cases left <;> exact Or.inl ⟨rfl, fun h => by cases h⟩
      | renameFails e => exact Or.inl ⟨rfl, fun h => by cases h⟩

theorem hasChunk_iff {s : BlobStore} {h : Hash32} :
    s.hasChunk h = true ↔ ∃ b, s.chunks[h]? = some b := by
  unfold hasChunk
  rw [Std.ExtTreeMap.contains_eq_isSome_getElem?, Option.isSome_iff_exists]

/-- Chunks stay. -/
theorem putChunk_keeps {s : BlobStore} {h : Hash32} {b : List UInt8} (hb : s.chunks[h]? = some b)
    (claimed : Hash32) (bytes : List UInt8) (io : ChunkIo) :
    (s.putChunk claimed bytes io).1.chunks[h]? = some b := by
  rcases putChunk_cases s claimed bytes io with ⟨heq, -⟩ | ⟨-, hnew, heq, -⟩
  · rw [heq, hb]
  · rw [heq, Std.ExtTreeMap.getElem?_insert, if_neg, hb]
    intro hcmp
    obtain rfl := Std.compare_eq_iff_eq.mp hcmp
    rw [hasChunk_iff.mpr ⟨b, hb⟩] at hnew
    cases hnew

/-- What is new is what was given, under its own hash. -/
theorem putChunk_new {s : BlobStore} {claimed h : Hash32} {bytes b : List UInt8} {io : ChunkIo}
    (hb : (s.putChunk claimed bytes io).1.chunks[h]? = some b) :
    s.chunks[h]? = some b ∨ b = bytes ∧ Primitives.sha256 b = h := by
  rcases putChunk_cases s claimed bytes io with ⟨heq, -⟩ | ⟨hhash, -, heq, -⟩
  · rw [heq] at hb
    exact Or.inl hb
  · rw [heq, Std.ExtTreeMap.getElem?_insert] at hb
    split at hb
    · next hcmp =>
      obtain rfl := Std.compare_eq_iff_eq.mp hcmp
      obtain rfl := Option.some.inj hb
      exact Or.inr ⟨rfl, hhash⟩
    · exact Or.inl hb

/-- A success means that the chunk is there. -/
theorem putChunk_ok {s : BlobStore} {claimed : Hash32} {bytes : List UInt8} {io : ChunkIo}
    (hok : (s.putChunk claimed bytes io).2.isOk = true) :
    (s.putChunk claimed bytes io).1.hasChunk claimed = true := by
  rcases putChunk_cases s claimed bytes io with ⟨heq, hthere⟩ | ⟨-, -, heq, -⟩
  · have hold := (hthere hok).2
    unfold hasChunk at hold ⊢
    rw [heq]
    exact hold
  · unfold hasChunk
    rw [heq]
    simp

/-- One turn of `put`'s loop. -/
theorem putChunks_cons (s : BlobStore) (io : ℕ → ChunkIo) (c : List UInt8)
    (rest : List (List UInt8)) (i : ℕ) :
    ((s.putChunk (Primitives.sha256 c) c (io i)).2.isOk = true ∧ s.putChunks io (c :: rest) i =
      (s.putChunk (Primitives.sha256 c) c (io i)).1.putChunks io rest (i + 1)) ∨
    ((s.putChunks io (c :: rest) i).1 = (s.putChunk (Primitives.sha256 c) c (io i)).1 ∧
      (s.putChunks io (c :: rest) i).2.isOk = false) := by
  rw [putChunks]
  cases s.putChunk (Primitives.sha256 c) c (io i) with
  | mk t r =>
    cases r with
    | error e => exact Or.inr ⟨rfl, rfl⟩
    | ok x => exact Or.inl ⟨rfl, rfl⟩

/-- **What `put` does to the chunks**: it keeps them, adds pieces under their own hashes, and after
    a success all of them are there. -/
theorem putChunks_spec (io : ℕ → ChunkIo) (cs : List (List UInt8)) (s : BlobStore) (i : ℕ) :
    (∀ (h : Hash32) (b : List UInt8), s.chunks[h]? = some b →
      (s.putChunks io cs i).1.chunks[h]? = some b) ∧
    (∀ (h : Hash32) (b : List UInt8), (s.putChunks io cs i).1.chunks[h]? = some b →
      s.chunks[h]? = some b ∨ b ∈ cs ∧ Primitives.sha256 b = h) ∧
    ((s.putChunks io cs i).2.isOk = true →
      ∀ c ∈ cs, (s.putChunks io cs i).1.hasChunk (Primitives.sha256 c) = true) := by
  induction cs generalizing s i with
  | nil => exact ⟨fun _ _ h => h, fun _ _ h => Or.inl h, fun _ c hc => absurd hc List.not_mem_nil⟩
  | cons c rest ih =>
    have hkeeps : ∀ (h : Hash32) (b : List UInt8), s.chunks[h]? = some b →
        (s.putChunk (Primitives.sha256 c) c (io i)).1.chunks[h]? = some b :=
      fun _ _ hb => putChunk_keeps hb (Primitives.sha256 c) c (io i)
    have hnew : ∀ (h : Hash32) (b : List UInt8),
        (s.putChunk (Primitives.sha256 c) c (io i)).1.chunks[h]? = some b →
        s.chunks[h]? = some b ∨ b ∈ c :: rest ∧ Primitives.sha256 b = h := by
      intro h b hb
      rcases putChunk_new hb with hold | ⟨rfl, hhash⟩
      · exact Or.inl hold
      · exact Or.inr ⟨List.mem_cons_self, hhash⟩
    rcases putChunks_cons s io c rest i with ⟨hok, heq⟩ | ⟨hstate, hfail⟩
    · obtain ⟨hkeeps', hnew', hall⟩ := ih (s.putChunk (Primitives.sha256 c) c (io i)).1 (i + 1)
      rw [heq]
      refine ⟨fun h b hb => hkeeps' h b (hkeeps h b hb), fun h b hb => ?_, fun hok' c' hc' => ?_⟩
      · rcases hnew' h b hb with hb | ⟨hmem, hhash⟩
        · exact hnew h b hb
        · exact Or.inr ⟨List.mem_cons_of_mem c hmem, hhash⟩
      · rcases List.mem_cons.mp hc' with rfl | hc'
        · obtain ⟨b, hb⟩ := hasChunk_iff.mp (putChunk_ok hok)
          exact hasChunk_iff.mpr ⟨b, hkeeps' _ b hb⟩
        · exact hall hok' c' hc'
    · rw [hstate, hfail]
      exact ⟨hkeeps, hnew, fun h => by cases h⟩

theorem put_fst (s : BlobStore) (bytes : List UInt8) (io : ℕ → ChunkIo) :
    (s.put bytes io).1 = (s.putChunks io (Lib.pieces chunkBytes bytes) 0).1 ∧
      (s.put bytes io).2.isOk = (s.putChunks io (Lib.pieces chunkBytes bytes) 0).2.isOk := by
  unfold put
  cases s.putChunks io (Lib.pieces chunkBytes bytes) 0 with
  | mk t r => cases r <;> exact ⟨rfl, rfl⟩

theorem getElem?_foldl_erase {β : Type} (l : List Hash32) (m : Std.ExtTreeMap Hash32 β)
    (h : Hash32) : (l.foldl (fun m h => m.erase h) m)[h]? = if h ∈ l then none else m[h]? := by
  induction l generalizing m with
  | nil => rfl
  | cons k l ih =>
    rw [List.foldl_cons, ih, Std.ExtTreeMap.getElem?_erase]
    by_cases hk : k = h
    · subst hk
      simp
    · have hcmp : ¬ compare k h = .eq := fun hcmp => hk (Std.compare_eq_iff_eq.mp hcmp)
      simp [hcmp, Ne.symm hk]

/-- **What a collection does**: the chunks that are not named, and that the file system removes, are
    gone. -/
theorem getElem?_gc {s t : BlobStore} {keep : List BlobRef} {io : GcIo} {n : ℕ}
    (hgc : s.gc keep io = (t, .ok n)) (h : Hash32) : t.chunks[h]? =
      if (∃ r ∈ keep, h ∈ r.chunks) ∨ io.removes h = false then s.chunks[h]? else none := by
  unfold gc at hgc
  cases hdir : io.readDir with
  | error e =>
    rw [hdir] at hgc
    cases (Prod.mk.inj hgc).2
  | ok x =>
    rw [hdir] at hgc
    obtain ⟨rfl, -⟩ := Prod.mk.inj hgc
    show ((s.chunks.keys.filter fun h => !(keep.flatMap BlobRef.chunks).contains h &&
      io.removes h).foldl (fun m h => m.erase h) s.chunks)[h]? = _
    have hmem : h ∈ (s.chunks.keys.filter fun h => !(keep.flatMap BlobRef.chunks).contains h &&
        io.removes h) ↔
        h ∈ s.chunks ∧ ¬ ((∃ r ∈ keep, h ∈ r.chunks) ∨ io.removes h = false) := by
      rw [List.mem_filter, Std.ExtTreeMap.mem_keys, Bool.and_eq_true, Bool.not_eq_true',
        ← Bool.not_eq_true, List.contains_iff_mem, List.mem_flatMap, not_or, Bool.not_eq_false]
    rw [getElem?_foldl_erase]
    by_cases hstays : (∃ r ∈ keep, h ∈ r.chunks) ∨ io.removes h = false
    · rw [if_pos hstays, if_neg fun hin => (hmem.mp hin).2 hstays]
    · rw [if_neg hstays]
      by_cases hthere : h ∈ s.chunks
      · rw [if_pos (hmem.mpr ⟨hthere, hstays⟩)]
      · rw [if_neg fun hin => hthere (hmem.mp hin).1, Std.ExtTreeMap.getElem?_eq_none hthere]

/-- A collection takes away and adds nothing, and what is named stays. -/
theorem gc_cases (s : BlobStore) (keep : List BlobRef) (io : GcIo) (h : Hash32) :
    (s.gc keep io).1.chunks[h]? = s.chunks[h]? ∨
      (s.gc keep io).1.chunks[h]? = none ∧ ¬ ∃ r ∈ keep, h ∈ r.chunks := by
  cases hgc : s.gc keep io with
  | mk t r =>
    cases r with
    | error e =>
      unfold gc at hgc
      cases hdir : io.readDir with
      | error e =>
        rw [hdir] at hgc
        obtain ⟨rfl, -⟩ := Prod.mk.inj hgc
        exact Or.inl rfl
      | ok x =>
        rw [hdir] at hgc
        cases (Prod.mk.inj hgc).2
    | ok n =>
      rw [getElem?_gc hgc]
      split
      · exact Or.inl rfl
      · next hnot => exact Or.inr ⟨rfl, fun hr => hnot (Or.inl hr)⟩


/-! ## What is missing -/

theorem mem_missingFrom (s : BlobStore) (h : Hash32) (l seen : List Hash32) :
    h ∈ s.missingFrom l seen ↔ h ∈ l ∧ h ∉ seen ∧ s.hasChunk h = false := by
  induction l generalizing seen with
  | nil => simp [missingFrom]
  | cons k l ih =>
    unfold missingFrom
    split
    · next hseen =>
      rw [ih]
      constructor
      · rintro ⟨hl, hnew, hno⟩
        exact ⟨List.mem_cons_of_mem k hl, hnew, hno⟩
      · rintro ⟨hl, hnew, hno⟩
        rcases List.mem_cons.mp hl with rfl | hl
        · exact absurd hseen hnew
        · exact ⟨hl, hnew, hno⟩
    · next hseen =>
      split
      · next hthere =>
        rw [ih, List.mem_cons, List.mem_cons, not_or]
        constructor
        · rintro ⟨hl, ⟨-, hnew⟩, hno⟩
          exact ⟨Or.inr hl, hnew, hno⟩
        · rintro ⟨rfl | hl, hnew, hno⟩
          · rw [hthere] at hno
            cases hno
          · refine ⟨hl, ⟨fun heq => ?_, hnew⟩, hno⟩
            rw [heq, hthere] at hno
            cases hno
      · next hthere =>
        rw [List.mem_cons, ih, List.mem_cons, List.mem_cons, not_or]
        constructor
        · rintro (rfl | ⟨hl, ⟨-, hnew⟩, hno⟩)
          · exact ⟨Or.inl rfl, hseen, Bool.eq_false_iff.mpr hthere⟩
          · exact ⟨Or.inr hl, hnew, hno⟩
        · rintro ⟨hl, hnew, hno⟩
          by_cases heq : h = k
          · exact Or.inl heq
          · exact Or.inr ⟨hl.resolve_left heq, ⟨heq, hnew⟩, hno⟩

theorem nodup_missingFrom (s : BlobStore) (l seen : List Hash32) :
    (s.missingFrom l seen).Nodup := by
  induction l generalizing seen with
  | nil => exact List.nodup_nil
  | cons k l ih =>
    unfold missingFrom
    split
    · exact ih seen
    · split
      · exact ih (k :: seen)
      · refine List.nodup_cons.mpr ⟨fun hin => ?_, ih (k :: seen)⟩
        exact ((mem_missingFrom s k l (k :: seen)).mp hin).2.1 List.mem_cons_self

theorem mem_missing {s : BlobStore} {r : BlobRef} {h : Hash32} :
    h ∈ s.missing r ↔ h ∈ r.chunks ∧ s.hasChunk h = false := by
  unfold missing
  rw [mem_missingFrom]
  simp

theorem missing_eq_nil_iff {s : BlobStore} {r : BlobRef} :
    s.missing r = [] ↔ s.isComplete r = true := by
  unfold isComplete
  rw [List.eq_nil_iff_forall_not_mem, List.all_eq_true]
  refine forall_congr' fun h => ?_
  rw [mem_missing, not_and, Bool.not_eq_false]

/-! ## Putting the chunks together -/

theorem length_concat {s : BlobStore} {l : List Hash32} {out b : List UInt8}
    (hout : out.length ≤ isizeMax) (h : s.concat l out = some (.ok b)) : b.length ≤ isizeMax := by
  induction l generalizing out with
  | nil =>
    obtain rfl := Except.ok.inj (Option.some.inj h)
    exact hout
  | cons k l ih =>
    unfold concat at h
    split at h
    · cases Option.some.inj h
    · split at h
      · cases h
      · next hle => exact ih (not_lt.mp hle) h

/-- What comes out is what the reference describes. -/
theorem get_ok {s : BlobStore} {r : BlobRef} {b : List UInt8} (h : s.get r = some (.ok b)) :
    Primitives.sha256 b = r.hash ∧ b.length = r.size := by
  unfold get at h
  split at h
  · cases h
  · obtain ⟨out, hconcat, hout⟩ := Option.map_eq_some_iff.mp h
    cases out with
    | error e => cases hout
    | ok out =>
      change Update.BlobStore.verify r out = .ok b at hout
      unfold Update.BlobStore.verify at hout
      split at hout
      · cases hout
      · next hsize =>
        split at hout
        · cases hout
        · next hhash =>
          obtain rfl := Except.ok.inj hout
          have hle := length_concat (Nat.zero_le _) hconcat
          refine ⟨not_not.mp hhash, ?_⟩
          rw [← not_not.mp hsize, Nat.mod_eq_of_lt]
          unfold isizeMax at hle
          omega

/-- What the chunks of that list hold, one after the other. -/
def joined (s : BlobStore) (l : List Hash32) : List UInt8 :=
  l.flatMap fun h => (s.getChunk h).getD []

/-- Chunks that are all there are put together, as far as a vector can hold them. -/
theorem concat_present {s : BlobStore} {l : List Hash32} {out : List UInt8}
    (hall : ∀ h ∈ l, s.hasChunk h = true) (hout : out.length ≤ isizeMax) :
    s.concat l out = if isizeMax < (out ++ s.joined l).length then none
      else some (.ok (out ++ s.joined l)) := by
  induction l generalizing out with
  | nil =>
    rw [joined, List.flatMap_nil, List.append_nil, if_neg (not_lt.mpr hout)]
    rfl
  | cons h l ih =>
    obtain ⟨hh, hl⟩ := List.forall_mem_cons.mp hall
    obtain ⟨c, hc⟩ := hasChunk_iff.mp hh
    have hsum : out ++ s.joined (h :: l) = (out ++ c) ++ s.joined l := by
      unfold joined
      rw [List.flatMap_cons, List.append_assoc, getChunk, hc]
      rfl
    rw [hsum, concat, getChunk, hc]
    dsimp only
    by_cases hfits : isizeMax < (out ++ c).length
    · -- what is behind it does not make it shorter
      have hmore : isizeMax < (out ++ c ++ s.joined l).length := by
        rw [List.length_append]
        omega
      rw [if_pos hfits, if_pos hmore]
    · rw [if_neg hfits, ih hl (not_lt.mp hfits)]

/-- The chunks, put together, are the blob that the reference describes. -/
structure Forms (s : BlobStore) (r : BlobRef) : Prop where
  fits : r.size.val ≤ isizeMax
  size : (s.joined r.chunks).length = r.size.val
  hash : Primitives.sha256 (s.joined r.chunks) = r.hash

/-- **A blob whose chunks are all there comes out exactly when they form it.** -/
theorem get_iff {s : BlobStore} {r : BlobRef} (hall : s.isComplete r = true) {b : List UInt8} :
    s.get r = some (.ok b) ↔ s.Forms r ∧ b = s.joined r.chunks := by
  have hconcat := concat_present (List.all_eq_true.mp hall)
    (show ([] : List UInt8).length ≤ isizeMax from Nat.zero_le _)
  rw [List.nil_append] at hconcat
  constructor
  · intro hget
    have hfits : r.size.val ≤ isizeMax := by
      unfold get at hget
      split at hget
      · cases hget
      · next hfits => exact not_lt.mp hfits
    obtain ⟨hhash, hsize⟩ := get_ok hget
    have hb : b = s.joined r.chunks := by
      unfold get at hget
      rw [if_neg (not_lt.mpr hfits), hconcat] at hget
      split at hget
      · cases hget
      · have hout : Update.BlobStore.verify r (s.joined r.chunks) = .ok b := Option.some.inj hget
        unfold Update.BlobStore.verify at hout
        split at hout
        · cases hout
        · split at hout
          · cases hout
          · exact (Except.ok.inj hout).symm
    rw [hb] at hhash hsize
    exact ⟨⟨hfits, hsize, hhash⟩, hb⟩
  · rintro ⟨⟨hfits, hsize, hhash⟩, rfl⟩
    have hverify : Update.BlobStore.verify r (s.joined r.chunks) = .ok (s.joined r.chunks) := by
      unfold Update.BlobStore.verify
      rw [hsize, Nat.mod_eq_of_lt r.size.isLt, if_neg (not_not.mpr rfl), if_neg (not_not.mpr hhash)]
    unfold get
    rw [if_neg (not_lt.mpr hfits), hconcat, if_neg (by rw [hsize]; exact not_lt.mpr hfits)]
    exact congrArg some hverify

/-- A blob whose pieces are stored comes out as it went in. -/
theorem get_refOf {s : BlobStore} {bytes : List UInt8} (hle : bytes.length ≤ isizeMax)
    (hall : ∀ c ∈ Lib.pieces chunkBytes bytes, s.chunks[Primitives.sha256 c]? = some c) :
    s.get (refOf bytes) = some (.ok bytes) := by
  have hjoined : s.joined (refOf bytes).chunks = bytes := by
    have hpieces : (Lib.pieces chunkBytes bytes).flatMap (fun c =>
        (s.getChunk (Primitives.sha256 c)).getD []) = (Lib.pieces chunkBytes bytes).flatMap id :=
      List.flatMap_congr fun c hc => by rw [getChunk, hall c hc]; rfl
    unfold joined refOf
    rw [List.flatMap_map, hpieces, List.flatMap_id, Lib.flatten_pieces]
  have hsize : (refOf bytes).size.val = bytes.length := by
    show bytes.length % 2 ^ 64 = bytes.length
    refine Nat.mod_eq_of_lt ?_
    unfold isizeMax at hle
    omega
  have hcomplete : s.isComplete (refOf bytes) = true := by
    refine List.all_eq_true.mpr fun h hh => ?_
    obtain ⟨c, hc, rfl⟩ := List.mem_map.mp hh
    exact hasChunk_iff.mpr ⟨c, hall c hc⟩
  refine (get_iff hcomplete).mpr ⟨⟨?_, ?_, ?_⟩, hjoined.symm⟩
  · rw [hsize]
    exact hle
  · rw [hsize, hjoined]
  · rw [hjoined]
    rfl

end BlobStore

/-! ## Runs -/

/-- A `&[u8]`: no slice is longer than `isize::MAX`. -/
abbrev Slice := { bytes : List UInt8 // bytes.length ≤ isizeMax }

inductive Input where
  | putChunk (claimed : Hash32) (bytes : Slice) (io : ChunkIo)
  | put (bytes : Slice) (io : ℕ → ChunkIo)
  | gc (keep : List BlobRef) (io : GcIo)

inductive Reply where
  | putChunk (r : Except String Unit)
  | put (r : Except String BlobRef)
  | gc (r : Except String ℕ)

def machine : Lib.Machine BlobStore Input Reply where
  step
    | s, .putChunk claimed bytes io =>
      ((s.putChunk claimed bytes.val io).1, [.putChunk (s.putChunk claimed bytes.val io).2])
    | s, .put bytes io => ((s.put bytes.val io).1, [.put (s.put bytes.val io).2])
    | s, .gc keep io => ((s.gc keep io).1, [.gc (s.gc keep io).2])

/-- The texts that an input offers as chunks. -/
def texts : Input → List (List UInt8)
  | .putChunk _ bytes _ => [bytes.val]
  | .put bytes _ => Lib.pieces chunkBytes bytes.val
  | .gc _ _ => []

/-- Every chunk hashes to its name, and was offered in the run. -/
def Sound (past : List Input) (s : BlobStore) : Prop :=
  ∀ (h : Hash32) (b : List UInt8), s.chunks[h]? = some b →
    Primitives.sha256 b = h ∧ b ∈ past.flatMap texts

theorem step_new {s : BlobStore} {i : Input} {h : Hash32} {b : List UInt8}
    (hb : (machine.step s i).1.chunks[h]? = some b) :
    s.chunks[h]? = some b ∨ b ∈ texts i ∧ Primitives.sha256 b = h := by
  cases i with
  | putChunk claimed bytes io =>
    rcases BlobStore.putChunk_new hb with hold | ⟨rfl, hhash⟩
    · exact Or.inl hold
    · exact Or.inr ⟨List.mem_singleton_self _, hhash⟩
  | put bytes io =>
    have hput : (machine.step s (.put bytes io)).1 =
      (s.putChunks io (Lib.pieces chunkBytes bytes.val) 0).1 := (s.put_fst bytes.val io).1
    rw [hput] at hb
    exact (BlobStore.putChunks_spec io _ s 0).2.1 h b hb
  | gc keep io =>
    left
    rcases s.gc_cases keep io h with hsame | ⟨hgone, -⟩
    · exact hsame.symm.trans hb
    · cases hgone.symm.trans hb

/-- A chunk stays, unless a collection does not know it. -/
theorem step_keeps {s : BlobStore} {i : Input} {h : Hash32} {b : List UInt8}
    (hb : s.chunks[h]? = some b)
    (hkeep : ∀ keep io, i = .gc keep io → ∃ r ∈ keep, h ∈ r.chunks) :
    (machine.step s i).1.chunks[h]? = some b := by
  cases i with
  | putChunk claimed bytes io => exact BlobStore.putChunk_keeps hb claimed bytes.val io
  | put bytes io =>
    have hput : (machine.step s (.put bytes io)).1 =
      (s.putChunks io (Lib.pieces chunkBytes bytes.val) 0).1 := (s.put_fst bytes.val io).1
    rw [hput]
    exact (BlobStore.putChunks_spec io _ s 0).1 h b hb
  | gc keep io =>
    rcases s.gc_cases keep io h with hsame | ⟨-, hnot⟩
    · exact hsame.trans hb
    · exact absurd (hkeep keep io rfl) hnot

/-- **A store that was empty is sound.** -/
theorem sound_run (dir : String) (ins : List Input) :
    Sound ins (machine.run (.empty dir) ins) := by
  refine machine.run_invariant (fun h b hb => ?_) (fun past s i hs h b hb => ?_) ins
  · rw [BlobStore.empty, Std.ExtTreeMap.getElem?_empty] at hb
    cases hb
  · rw [List.flatMap_append, List.mem_append]
    rcases step_new hb with hold | ⟨hmem, hhash⟩
    · exact ⟨(hs h b hold).1, Or.inl (hs h b hold).2⟩
    · exact ⟨hhash, Or.inr (by simpa using hmem)⟩

/-- What is there stays while every collection knows it. -/
theorem run_keeps {s : BlobStore} {h : Hash32} {b : List UInt8} (hb : s.chunks[h]? = some b)
    {rest : List Input}
    (hkeep : ∀ keep io, Input.gc keep io ∈ rest → ∃ r ∈ keep, h ∈ r.chunks) :
    (machine.run s rest).chunks[h]? = some b := by
  induction rest generalizing s with
  | nil => exact hb
  | cons i rest ih =>
    refine ih (step_keeps hb fun keep io hi => ?_) fun keep io hmem => ?_
    · exact hkeep keep io (hi ▸ List.mem_cons_self)
    · exact hkeep keep io (List.mem_cons_of_mem i hmem)

/-- No two of the texts have one hash. -/
def CollisionFree (offered : List (List UInt8)) : Prop :=
  ∀ a ∈ offered, ∀ b ∈ offered, Primitives.sha256 a = Primitives.sha256 b → a = b

instance (offered : List (List UInt8)) : Decidable (CollisionFree offered) :=
  inferInstanceAs (Decidable (∀ a ∈ offered, ∀ b ∈ offered, _))

/-- **A blob that went in comes out**, as long as the collections know it. -/
theorem stored_after_put {dir : String} {past rest : List Input} {bytes : Slice} {io : ℕ → ChunkIo}
    (hfree : CollisionFree ((past ++ .put bytes io :: rest).flatMap texts))
    (hok : ((machine.run (.empty dir) past).put bytes.val io).2.isOk = true)
    (hkeep : ∀ keep io, Input.gc keep io ∈ rest → refOf bytes.val ∈ keep)
    (c : List UInt8) (hc : c ∈ Lib.pieces chunkBytes bytes.val) :
    (machine.run (.empty dir) (past ++ .put bytes io :: rest)).chunks[Primitives.sha256 c]? =
      some c := by
  have hname : Primitives.sha256 c ∈ (refOf bytes.val).chunks := List.mem_map_of_mem hc
  obtain ⟨hstate, hsuccess⟩ := (machine.run (.empty dir) past).put_fst bytes.val io
  have hin := (BlobStore.putChunks_spec io _ _ 0).2.2 (hsuccess.symm.trans hok) c hc
  rw [← hstate] at hin
  obtain ⟨b, hb⟩ := BlobStore.hasChunk_iff.mp hin
  have hstays : (machine.run (.empty dir) (past ++ .put bytes io :: rest)).chunks[
      Primitives.sha256 c]? = some b := by
    have hsplit : machine.run (.empty dir) (past ++ .put bytes io :: rest) =
        machine.run ((machine.run (.empty dir) past).put bytes.val io).1 rest := by
      unfold Lib.Machine.run
      rw [List.foldl_append]
      rfl
    rw [hsplit]
    exact run_keeps hb fun keep io hmem => ⟨_, hkeep keep io hmem, hname⟩
  obtain ⟨hhash, hoffered⟩ := sound_run dir _ _ b hstays
  have hcIn : c ∈ (past ++ .put bytes io :: rest).flatMap texts :=
    List.mem_flatMap.mpr ⟨.put bytes io, by simp, hc⟩
  rw [hfree b hoffered c hcIn hhash] at hstays
  exact hstays

/-- Store chunks one after the other, whatever becomes of each. -/
def storeAll (s : BlobStore) (chunks : List (Hash32 × Slice × ChunkIo)) :
    BlobStore × List (Except String Unit) :=
  Lib.sweep (fun s c => ((s.putChunk c.1 c.2.1 c.2.2).1, [(s.putChunk c.1 c.2.1 c.2.2).2])) s chunks

/-- Chunks that were stored without an error are there. -/
theorem hasChunk_storeAll {chunks : List (Hash32 × Slice × ChunkIo)} {s : BlobStore}
    (hok : ∀ reply ∈ (storeAll s chunks).2, reply.isOk = true) (h : Hash32)
    (hin : s.hasChunk h = true ∨ h ∈ chunks.map Prod.fst) :
    (storeAll s chunks).1.hasChunk h = true := by
  induction chunks generalizing s with
  | nil => exact hin.resolve_right List.not_mem_nil
  | cons c chunks ih =>
    have hfirst : (s.putChunk c.1 c.2.1 c.2.2).2.isOk = true :=
      hok _ (List.mem_append_left _ (List.mem_singleton_self _))
    refine ih (fun reply hreply => hok reply (List.mem_append_right _ hreply)) ?_
    rcases hin with hthere | hnamed
    · obtain ⟨b, hb⟩ := BlobStore.hasChunk_iff.mp hthere
      exact Or.inl (BlobStore.hasChunk_iff.mpr ⟨b, BlobStore.putChunk_keeps hb c.1 c.2.1 c.2.2⟩)
    · rcases List.mem_cons.mp hnamed with rfl | hrest
      · exact Or.inl (BlobStore.putChunk_ok hfirst)
      · exact Or.inr hrest

end

section

attribute [local instance] Sample.primitives

/-- A chunk from elsewhere, a blob, and a collection that knows the blob. -/
def sampleRun : List Input :=
  [.putChunk (Primitives.sha256 [7]) ⟨[7], by decide⟩ .ok,
    .put ⟨[1, 2, 3], by decide⟩ fun _ => .ok,
    .gc [refOf [1, 2, 3]] ⟨.ok (), fun _ => true⟩]

end

end PhReactor.Blob
