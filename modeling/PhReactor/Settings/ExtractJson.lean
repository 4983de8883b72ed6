/-
  The JSON object in an answer of a model (`extract_json_object` of `src/settings/mod.rs`).

  The answer may have prose or a markdown fence around the object.  Three strategies are tried: the
  whole text, the text without a fence, and the first balanced block.

  1. The parser is `serde_json`'s, a parameter.  `ReadsJson` is what is known of it: what it accepts
     is a JSON text, an object if the text begins with a brace, and blanks around a text do not
     matter.

  2. The block scan keeps no more than a depth and whether it is inside a string.  A part of a JSON
     text leaves it as it was (`Passes`), so from the brace of an object on it ends at the brace
     that closes it, whatever follows (`block_object`).

  3. Hence a text has one object that begins at its first brace (`Inside.object_unique`).  All three
     strategies look at a piece of the text that begins at or before that brace, so what they find
     is that object.
-/
import Mathlib.Data.List.TakeWhile
import PhReactor.Json
import PhReactor.Lib.JsonText
import PhReactor.Update.Release

namespace PhReactor.ExtractJson

open Lib (JsonText IsObjectText IsString StringBody Blank isBlankChar isPlain)

/-! ## Texts -/

def trimEnd (l : List Char) : List Char := (l.reverse.dropWhile Update.isWhiteSpace).reverse

def stripPrefix (p l : List Char) : Option (List Char) :=
  if p.isPrefixOf l then some (l.drop p.length) else none

def stripSuffix (p l : List Char) : Option (List Char) :=
  if p.isSuffixOf l then some (l.take (l.length - p.length)) else none

def fence : List Char := ['`', '`', '`']

/-- Strip a markdown fence if present. -/
def unfenced (s : List Char) : List Char :=
  let un := (stripPrefix fence s).map fun rest => (stripPrefix ['j', 's', 'o', 'n'] rest).getD rest
  Update.trim ((stripSuffix fence (trimEnd (un.getD s))).getD (un.getD s))

/-! ## The scan -/

structure Scan where
  depth : ℕ
  inStr : Bool
  esc : Bool

/-- What a character does, and whether it closes the block; nothing if the depth underflows. -/
def Scan.step (s : Scan) (c : Char) : Option (Scan × Bool) :=
  if s.inStr then
    if s.esc then some ({ s with esc := false }, false)
    else if c = '\\' then some ({ s with esc := true }, false)
    else if c = '"' then some ({ s with inStr := false }, false)
    else some (s, false)
  else if c = '"' then some ({ s with inStr := true }, false)
  else if c = '{' then some ({ s with depth := s.depth + 1 }, false)
  else if c = '}' then
    match s.depth with
    | 0 => none
    | depth + 1 => some ({ s with depth := depth }, depth == 0)
  else some (s, false)

/-- The loop over the characters: the block up to where it is closed, if it is. -/
def block : Scan → List Char → List Char → Option (Option (List Char))
  | _, _, [] => some none
  | s, read, c :: rest =>
    match s.step c with
    | none => none
    | some (s, closed) => if closed then some (some (read ++ [c])) else block s (read ++ [c]) rest

/-- `from_str`, if it is an object. -/
def objectOf (fromStr : String → Option Value) (l : List Char) : Option Value :=
  (fromStr (String.ofList l)).filter fun v => v.asObject?.isSome

/-- Pull the first balanced JSON object out of a model response that may be wrapped in prose or
    markdown fences.  There is no result if the depth underflows. -/
def extractJsonObject (fromStr : String → Option Value) (text : String) : Option (Option Value) :=
  let s := Update.trim text.toList
  match objectOf fromStr s with
  | some v => some (some v)
  | none =>
    match objectOf fromStr (unfenced s) with
    | some v => some (some v)
    | none =>
      match s.dropWhile (· != '{') with
      | [] => some none
      | start => (block ⟨0, false, false⟩ [] start).map (·.bind fun l => fromStr (String.ofList l))

/-! ## The depth never underflows -/

/-- Once a block has begun, a step does not underflow, and the block goes on at a positive depth. -/
theorem Scan.exists_step {s : Scan} (h : 0 < s.depth) (c : Char) :
    ∃ s' closed, s.step c = some (s', closed) ∧ (closed = false → 0 < s'.depth) := by
  unfold Scan.step
  split
  · split
    · exact ⟨_, _, rfl, fun _ => h⟩
    · split
      · exact ⟨_, _, rfl, fun _ => h⟩
      · split <;> exact ⟨_, _, rfl, fun _ => h⟩
  · split
    · exact ⟨_, _, rfl, fun _ => h⟩
    · split
      · exact ⟨_, _, rfl, fun _ => Nat.succ_pos _⟩
      · split
        · obtain ⟨d, hd⟩ := Nat.exists_eq_succ_of_ne_zero (Nat.pos_iff_ne_zero.mp h)
          rw [hd]
          refine ⟨_, _, rfl, fun hopen => ?_⟩
          rw [beq_eq_false_iff_ne] at hopen
          exact Nat.pos_iff_ne_zero.mpr hopen
        · exact ⟨_, _, rfl, fun _ => h⟩

theorem block_ne_none {s : Scan} (h : 0 < s.depth) (read l : List Char) :
    block s read l ≠ none := by
  induction l generalizing s read with
  | nil => exact Option.some_ne_none _
  | cons c l ih =>
    obtain ⟨s', closed, hstep, hdepth⟩ := Scan.exists_step h c
    unfold block
    rw [hstep]
    cases closed with
    | true => exact Option.some_ne_none _
    | false => exact ih (hdepth rfl) (read ++ [c])

/-- The first brace is read at depth 0. -/
theorem block_brace (read l : List Char) :
    block ⟨0, false, false⟩ read ('{' :: l) = block ⟨1, false, false⟩ (read ++ ['{']) l := rfl

/-- **No text makes the depth underflow**, whatever the parser does. -/
theorem extractJsonObject_ne_none (fromStr : String → Option Value) (text : String) :
    extractJsonObject fromStr text ≠ none := by
  unfold extractJsonObject
  dsimp only
  split
  · exact Option.some_ne_none _
  · split
    · exact Option.some_ne_none _
    · cases hstart : (Update.trim text.toList).dropWhile (· != '{') with
      | nil => exact Option.some_ne_none _
      | cons c l =>
        have hc : c = '{' := by
          have hhead := List.head_dropWhile_not (· != '{') (l := Update.trim text.toList)
            (by simp [hstart])
          simpa [hstart] using hhead
        subst hc
        show Option.map _ (block _ _ _) ≠ none
        rw [block_brace, ne_eq, Option.map_eq_none_iff]
        exact block_ne_none Nat.one_pos _ _

/-! ## What a JSON text does to the scan -/

/-- Inside a block it is read over. -/
def Passes (l : List Char) : Prop := ∀ depth read rest,
  block ⟨depth + 1, false, false⟩ read (l ++ rest) =
    block ⟨depth + 1, false, false⟩ (read ++ l) rest

theorem passes_nil : Passes [] := fun _ read _ => by rw [List.append_nil]; rfl

theorem Passes.append {l l' : List Char} (h : Passes l) (h' : Passes l') : Passes (l ++ l') := by
  intro depth read rest
  rw [List.append_assoc, h, h', List.append_assoc]

theorem passes_plain {c : Char} (h : isPlain c = true) : Passes [c] := by
  unfold isPlain at h
  simp only [Bool.and_eq_true, bne_iff_ne, ne_eq] at h
  intro depth read rest
  have hstep : Scan.step ⟨depth + 1, false, false⟩ c = some (⟨depth + 1, false, false⟩, false) := by
    unfold Scan.step
    rw [if_neg Bool.false_ne_true, if_neg h.1.1, if_neg h.1.2, if_neg h.2]
  rw [List.singleton_append, block, hstep]
  rfl

theorem block_inString {c : Char} (hquote : c ≠ '"') (hslash : c ≠ '\\') (depth : ℕ)
    (read rest : List Char) : block ⟨depth, true, false⟩ read (c :: rest) =
      block ⟨depth, true, false⟩ (read ++ [c]) rest := by
  have hstep : Scan.step ⟨depth, true, false⟩ c = some (⟨depth, true, false⟩, false) := by
    unfold Scan.step
    rw [if_pos rfl, if_neg Bool.false_ne_true, if_neg hslash, if_neg hquote]
  rw [block, hstep]
  rfl

/-- Inside a string only a quote that is not escaped ends it. -/
theorem block_stringBody {body : List Char} (h : StringBody body) : ∀ depth read rest,
    block ⟨depth, true, false⟩ read (body ++ rest) =
      block ⟨depth, true, false⟩ (read ++ body) rest := by
  induction h with
  | nil =>
    intro depth read rest
    rw [List.append_nil]
    rfl
  | @plain c l hquote hslash _ _ ih =>
    intro depth read rest
    rw [List.cons_append, block_inString hquote hslash, ih, List.append_assoc]
    rfl
  | @escape c l _ _ ih =>
    intro depth read rest
    show block ⟨depth, true, false⟩ (read ++ ['\\'] ++ [c]) (l ++ rest) = _
    rw [ih, List.append_assoc, List.append_assoc]
    rfl
  | @unicode a b c d l hhex _ ih =>
    intro depth read rest
    have hdigit : ∀ x ∈ [a, b, c, d], x ≠ '"' ∧ x ≠ '\\' := by
      intro x hx
      constructor <;> rintro rfl <;> exact absurd (hhex _ hx) (by decide)
    show block ⟨depth, true, false⟩ (read ++ ['\\'] ++ ['u']) (a :: b :: c :: d :: (l ++ rest)) = _
    rw [block_inString (hdigit a (by simp)).1 (hdigit a (by simp)).2,
      block_inString (hdigit b (by simp)).1 (hdigit b (by simp)).2,
      block_inString (hdigit c (by simp)).1 (hdigit c (by simp)).2,
      block_inString (hdigit d (by simp)).1 (hdigit d (by simp)).2, ih]
    simp only [List.append_assoc, List.cons_append, List.nil_append]

theorem passes_string {l : List Char} (h : IsString l) : Passes l := by
  obtain ⟨body, hbody, rfl⟩ := h
  intro depth read rest
  show block ⟨depth + 1, true, false⟩ (read ++ ['"']) (body ++ ['"'] ++ rest) = _
  rw [List.append_assoc, block_stringBody hbody]
  show block ⟨depth + 1, false, false⟩ (read ++ ['"'] ++ body ++ ['"']) rest = _
  simp only [List.append_assoc, List.cons_append, List.nil_append]

theorem Passes.braces {l : List Char} (h : Passes l) : Passes ('{' :: l ++ ['}']) := by
  intro depth read rest
  show block ⟨depth + 1 + 1, false, false⟩ (read ++ ['{']) (l ++ ['}'] ++ rest) = _
  rw [List.append_assoc, h]
  show block ⟨depth + 1, false, false⟩ (read ++ ['{'] ++ l ++ ['}']) rest = _
  simp only [List.append_assoc, List.cons_append, List.nil_append]

/-- **The scan of an object ends where the object ends**, whatever follows. -/
theorem block_object {core : List Char} (h : IsObjectText core) (rest : List Char) :
    block ⟨0, false, false⟩ [] (core ++ rest) = some (some core) := by
  obtain ⟨body, hbody, rfl⟩ := h.pieces (P := Passes) passes_nil (fun _ _ h h' => h.append h')
    (fun _ h => passes_plain h) (fun _ h => passes_string h) (fun _ h => h.braces)
  show block ⟨0 + 1, false, false⟩ ['{'] (body ++ ['}'] ++ rest) = _
  rw [List.append_assoc, hbody]
  rfl

/-! ## The first object of a text -/

/-- A piece of a text with no brace before it. -/
def Inside (x l : List Char) : Prop := ∃ before after, l = before ++ x ++ after ∧ '{' ∉ before

theorem Inside.trans {x y l : List Char} (h : Inside x y) (h' : Inside y l) : Inside x l := by
  obtain ⟨a, b, rfl, ha⟩ := h
  obtain ⟨a', b', rfl, ha'⟩ := h'
  refine ⟨a' ++ a, b ++ b', by simp only [List.append_assoc], ?_⟩
  rw [List.mem_append]
  exact fun hin => hin.elim ha' ha

theorem Inside.dropWhile {core l : List Char} (h : Inside core l) (hobject : IsObjectText core) :
    ∃ rest, l.dropWhile (· != '{') = core ++ rest := by
  obtain ⟨before, after, rfl, hbefore⟩ := h
  obtain ⟨body, -, rfl⟩ := hobject
  refine ⟨after, ?_⟩
  have hall : ∀ c ∈ before, (c != '{') = true := fun c hc =>
    bne_iff_ne.mpr fun heq => hbefore (heq ▸ hc)
  rw [List.append_assoc, List.dropWhile_append_of_pos hall]
  rfl

/-- **Only one object begins at the first brace.** -/
theorem Inside.object_unique {core core' l : List Char} (h : Inside core l) (h' : Inside core' l)
    (hobject : IsObjectText core) (hobject' : IsObjectText core') : core = core' := by
  obtain ⟨rest, hrest⟩ := h.dropWhile hobject
  obtain ⟨rest', hrest'⟩ := h'.dropWhile hobject'
  have hblock := block_object hobject rest
  rw [← hrest, hrest', block_object hobject' rest'] at hblock
  exact (Option.some.inj (Option.some.inj hblock)).symm

/-! ## Pieces that the strategies look at -/

theorem inside_dropWhile {p : Char → Bool} (hp : p '{' = false) (l : List Char) :
    Inside (l.dropWhile p) l := by
  refine ⟨l.takeWhile p, [], ?_, fun hin => ?_⟩
  · rw [List.append_nil, List.takeWhile_append_dropWhile]
  · have hbrace := List.mem_takeWhile_imp hin
    rw [hp] at hbrace
    cases hbrace

theorem inside_trimEnd (l : List Char) : Inside (trimEnd l) l := by
  have hsplit : l = trimEnd l ++ (l.reverse.takeWhile Update.isWhiteSpace).reverse := by
    unfold trimEnd
    rw [← List.reverse_append, List.takeWhile_append_dropWhile, List.reverse_reverse]
  exact ⟨[], _, hsplit, List.not_mem_nil⟩

theorem inside_trim (l : List Char) : Inside (Update.trim l) l :=
  (inside_trimEnd _).trans (inside_dropWhile (by decide) l)

theorem inside_stripPrefix {p l x : List Char} (hp : '{' ∉ p) (h : stripPrefix p l = some x) :
    Inside x l := by
  unfold stripPrefix at h
  split at h
  · next hprefix =>
    obtain ⟨rest, rfl⟩ := List.isPrefixOf_iff_prefix.mp hprefix
    rw [List.drop_left, Option.some.injEq] at h
    exact ⟨p, [], by rw [List.append_nil, h], hp⟩
  · cases h

theorem inside_stripSuffix {p l x : List Char} (h : stripSuffix p l = some x) : Inside x l := by
  unfold stripSuffix at h
  split at h
  · rw [Option.some.injEq] at h
    refine ⟨[], l.drop (l.length - p.length), ?_, List.not_mem_nil⟩
    rw [List.nil_append, ← h, List.take_append_drop]
  · cases h

theorem inside_unfenced (s : List Char) : Inside (unfenced s) s := by
  unfold unfenced
  dsimp only
  refine (inside_trim _).trans ?_
  generalize hun : (stripPrefix fence s).map _ = un
  have hinside : Inside (un.getD s) s := by
    rw [← hun]
    cases hfence : stripPrefix fence s with
    | none => exact ⟨[], [], by simp, List.not_mem_nil⟩
    | some rest =>
      refine Inside.trans ?_ (inside_stripPrefix (by decide) hfence)
      show Inside ((stripPrefix ['j', 's', 'o', 'n'] rest).getD rest) rest
      cases hjson : stripPrefix ['j', 's', 'o', 'n'] rest with
      | none => exact ⟨[], [], by simp, List.not_mem_nil⟩
      | some rest' => exact inside_stripPrefix (by decide) hjson
  refine Inside.trans ?_ hinside
  cases hsuffix : stripSuffix fence (trimEnd (un.getD s)) with
  | none => exact ⟨[], [], by simp, List.not_mem_nil⟩
  | some rest => exact (inside_stripSuffix hsuffix).trans (inside_trimEnd _)

theorem dropWhile_append_cons {p : Char → Bool} {c : Char} (hc : p c = false) (a x : List Char) :
    (a ++ c :: x).dropWhile p = a.dropWhile p ++ c :: x := by
  induction a with
  | nil => simp [hc]
  | cons b a ih =>
    rw [List.cons_append, List.dropWhile_cons, List.dropWhile_cons]
    split
    · exact ih
    · rfl

/-- Trimming does not cut an object. -/
theorem Inside.trim {core l : List Char} (h : Inside core l) (hobject : IsObjectText core) :
    Inside core (Update.trim l) := by
  obtain ⟨before, after, rfl, hbefore⟩ := h
  obtain ⟨body, -, rfl⟩ := hobject
  refine ⟨before.dropWhile Update.isWhiteSpace,
    (after.reverse.dropWhile Update.isWhiteSpace).reverse, ?_, fun hin =>
      hbefore ((List.dropWhile_sublist _).subset hin)⟩
  have hreverse :
      (before.dropWhile Update.isWhiteSpace ++ '{' :: (body ++ ['}'] ++ after)).reverse =
      after.reverse ++ '}' :: (body.reverse ++ ['{'] ++
        (before.dropWhile Update.isWhiteSpace).reverse) := by simp
  unfold Update.trim
  rw [List.append_assoc, List.cons_append, List.cons_append,
    dropWhile_append_cons (by decide : Update.isWhiteSpace '{' = false), hreverse,
    dropWhile_append_cons (by decide : Update.isWhiteSpace '}' = false)]
  simp

/-! ## The parser -/

/-- What is known of `serde_json::from_str`. -/
structure ReadsJson (fromStr : String → Option Value) : Prop where
  /-- What it accepts is a JSON text, and an object's begins with a brace. -/
  accepts : ∀ s v, fromStr s = some v → ∃ w l w', Blank w ∧ JsonText .value l ∧ Blank w' ∧
    s.toList = w ++ l ++ w' ∧ (v.asObject?.isSome = true → l.head? = some '{')
  /-- Blanks around a text do not matter. -/
  blanks : ∀ w l w', Blank w → Blank w' →
    fromStr (String.ofList (w ++ l ++ w')) = fromStr (String.ofList l)

theorem not_mem_of_blank {w : List Char} (h : Blank w) : '{' ∉ w := fun hin =>
  absurd (h _ hin) (by decide)

/-- An accepted object is the text of one, up to blanks. -/
theorem ReadsJson.object {fromStr : String → Option Value} (h : ReadsJson fromStr) {s : String}
    {v : Value} (hs : fromStr s = some v) (hv : v.asObject?.isSome = true) :
    ∃ core, Inside core s.toList ∧ IsObjectText core ∧ fromStr (String.ofList core) = some v := by
  obtain ⟨w, l, w', hw, hl, hw', hsplit, hhead⟩ := h.accepts s v hs
  refine ⟨l, ⟨w, w', hsplit, not_mem_of_blank hw⟩, Lib.isObjectText_of_head hl (hhead hv), ?_⟩
  rw [← h.blanks w l w' hw hw', ← hsplit, String.ofList_toList, hs]

theorem ReadsJson.objectOf {fromStr : String → Option Value} (h : ReadsJson fromStr)
    {l : List Char} {v : Value} (hl : objectOf fromStr l = some v) :
    ∃ core, Inside core l ∧ IsObjectText core ∧ fromStr (String.ofList core) = some v := by
  obtain ⟨hs, hv⟩ := Option.filter_eq_some_iff.mp hl
  have hobject := h.object hs hv
  rwa [String.toList_ofList] at hobject

/-- **The first JSON object is found.**  If no brace comes before it, what is returned is its value,
    whatever follows it; and no text at all makes the depth underflow. -/
theorem extractJsonObject_first (fromStr : String → Option Value) :
    (ReadsJson fromStr → ∀ before t after v, '{' ∉ before.toList → fromStr t = some v →
      v.asObject?.isSome = true →
      extractJsonObject fromStr (before ++ t ++ after) = some (some v)) ∧
    ∀ text, extractJsonObject fromStr text ≠ none := by
  refine ⟨fun h before t after v hbefore ht hv => ?_, extractJsonObject_ne_none fromStr⟩
  obtain ⟨core, hcore, hobject, hvalue⟩ := h.object ht hv
  have hinside : Inside core (Update.trim (before ++ t ++ after).toList) := by
    refine Inside.trim (hcore.trans ⟨before.toList, after.toList, ?_, hbefore⟩) hobject
    rw [String.toList_append, String.toList_append]
  -- whatever a strategy finds is that object
  have hfound : ∀ l v', Inside l (Update.trim (before ++ t ++ after).toList) →
      ExtractJson.objectOf fromStr l = some v' → v' = v := by
    intro l v' hl hobj
    obtain ⟨core', hcore', hobject', hvalue'⟩ := h.objectOf hobj
    rw [(hcore'.trans hl).object_unique hinside hobject' hobject, hvalue] at hvalue'
    exact (Option.some.inj hvalue').symm
  obtain ⟨rest, hrest⟩ := hinside.dropWhile hobject
  unfold extractJsonObject
  generalize Update.trim (before ++ t ++ after).toList = s at hinside hfound hrest ⊢
  dsimp only
  cases hwhole : ExtractJson.objectOf fromStr s with
  | some v' =>
    rw [← hfound s v' ⟨[], [], by simp, List.not_mem_nil⟩ hwhole]
  | none =>
    dsimp only
    cases hfence : ExtractJson.objectOf fromStr (unfenced s) with
    | some v' => rw [← hfound _ v' (inside_unfenced s) hfence]
    | none =>
      have hblock := block_object hobject rest
      obtain ⟨body, -, rfl⟩ := hobject
      dsimp only
      rw [hrest]
      show (block ⟨0, false, false⟩ [] ('{' :: body ++ ['}'] ++ rest)).map _ = _
      rw [hblock]
      exact congrArg some hvalue

/-! ## A parser of one text -/

def trimBlanks (l : List Char) : List Char :=
  ((l.dropWhile isBlankChar).reverse.dropWhile isBlankChar).reverse

/-- An object with a closing brace inside a string. -/
def braceText : List Char := ['{', '"', 'a', '"', ':', ' ', '"', '}', '"', '}']

def braceValue : Value := .object [("a", .string "\x7d")]

def readBrace (s : String) : Option Value :=
  if trimBlanks s.toList = braceText then some braceValue else none

theorem exists_trimBlanks (l : List Char) : ∃ w w', Blank w ∧ Blank w' ∧
    l = w ++ trimBlanks l ++ w' := by
  refine ⟨l.takeWhile isBlankChar,
    ((l.dropWhile isBlankChar).reverse.takeWhile isBlankChar).reverse,
    fun c hc => List.mem_takeWhile_imp hc,
    fun c hc => List.mem_takeWhile_imp (List.mem_reverse.mp hc), ?_⟩
  unfold trimBlanks
  rw [List.append_assoc, ← List.reverse_append, List.takeWhile_append_dropWhile,
    List.reverse_reverse, List.takeWhile_append_dropWhile]

theorem trimBlanks_append {w w' : List Char} (hw : Blank w) (hw' : Blank w') (l : List Char) :
    trimBlanks (w ++ l ++ w') = trimBlanks l := by
  have hreverse : ∀ c ∈ w'.reverse, isBlankChar c = true := fun c hc =>
    hw' c (List.mem_reverse.mp hc)
  unfold trimBlanks
  rw [List.append_assoc, List.dropWhile_append_of_pos hw, List.dropWhile_append]
  split
  · next hempty =>
    rw [List.isEmpty_iff.mp hempty, List.dropWhile_eq_nil_iff.mpr hw']
  · rw [List.reverse_append, List.dropWhile_append_of_pos hreverse]

theorem isObjectText_braceText : JsonText .value braceText := by
  have hstring : ∀ c, c ∈ ['a', '}'] → IsString ['"', c, '"'] := by
    intro c hc
    refine ⟨[c], ?_, rfl⟩
    rcases List.mem_pair.mp hc with rfl | rfl <;>
      exact StringBody.plain (by decide) (by decide) (by decide) StringBody.nil
  have hblank : Blank [' '] := by
    intro c hc
    rw [List.mem_singleton.mp hc]
    rfl
  have hnone : Blank [] := fun c hc => absurd hc List.not_mem_nil
  exact JsonText.object (JsonText.lastMember hnone (hstring 'a' (by decide)) hnone
    (JsonText.element hblank (JsonText.string (hstring '}' (by decide))) hnone))

theorem readsJson_readBrace : ReadsJson readBrace where
  accepts s v h := by
    unfold readBrace at h
    split at h
    · next htrim =>
      obtain ⟨w, w', hw, hw', hsplit⟩ := exists_trimBlanks s.toList
      rw [htrim] at hsplit
      exact ⟨w, braceText, w', hw, isObjectText_braceText, hw', hsplit, fun _ => rfl⟩
    · cases h
  blanks w l w' hw hw' := by
    unfold readBrace
    rw [String.toList_ofList, String.toList_ofList, trimBlanks_append hw hw']

/-- An answer with prose before a fence. -/
theorem extractJsonObject_fenced :
    extractJsonObject readBrace ("Here it is:\n```json\n" ++ "\x7b\"a\": \"\x7d\"\x7d" ++ "\n```") =
      some (some braceValue) :=
  (extractJsonObject_first readBrace).1 readsJson_readBrace _ _ _ _ (by decide) (by decide +kernel)
    rfl

end PhReactor.ExtractJson
