/-
  The WAL as bytes, and a crash in the middle of an append.

  `persist_action` appends one JSON line; `replay_doc` reads the file back as ONE string and takes
  its lines apart.  Everywhere else the WAL is the list of its actions: that is what reading a WAL
  that was only ever appended to gives back (`read_bytes`).

  A crash may cut the last line anywhere.  What then counts is what lies AFTER the last line end:

  1. Nothing: every action is recovered, and so is every later one.

  2. A broken line.  Nothing repairs it, and the next append CONTINUES it, so that the next action
     is lost with it (`not_recovers_of_torn`).

  3. Half a character.  Then the file is no string at all, and the whole log is lost.

  `recovers_iff` says exactly when what was written whole is recovered.  Printing and parsing of an
  action are `serde_json`'s; what the lines rely on is `JsonLines`.
-/
import PhReactor.Encoding
import PhReactor.Lib.Lines
import PhReactor.Store.Inner

set_option linter.unusedSectionVars false

namespace PhReactor

open Lib

/-! ## Strings and their bytes -/

/-- `read_to_string`: the bytes as a string, if they are one. -/
def readString (bytes : List UInt8) : Option String := String.fromUTF8? bytes.toByteArray

theorem toByteArray_strBytes (t : String) : (strBytes t).toByteArray = t.toByteArray := by
  rw [strBytes_eq]
  exact ByteArray.ext (by simp)

theorem readString_strBytes (t : String) : readString (strBytes t) = some t := by
  unfold readString
  rw [toByteArray_strBytes]
  unfold String.fromUTF8?
  rw [dif_pos t.isValidUTF8]
  rfl

theorem strBytes_of_readString {bytes : List UInt8} {t : String} (h : readString bytes = some t) :
    bytes = strBytes t := by
  unfold readString String.fromUTF8? at h
  split at h
  · rw [strBytes_eq, ← Option.some.inj h]
    show bytes = bytes.toByteArray.data.toList
    simp
  · cases h

/-- Bytes of a string that are split at a character are the bytes of two strings. -/
theorem exists_of_isValid {u : String} {before after : List UInt8}
    (h : before ++ after = strBytes u) (hpos : String.Pos.Raw.IsValid u ⟨before.length⟩) :
    ∃ v w, before = strBytes v ∧ after = strBytes w ∧ u = v ++ w := by
  obtain ⟨v, w, rfl, hv⟩ := String.Pos.Raw.isValid_iff_exists_append.mp hpos
  have hlen : before.length = (strBytes v).length := by
    rw [length_strBytes]
    exact congrArg String.Pos.Raw.byteIdx hv
  rw [strBytes_append] at h
  obtain ⟨hbefore, hafter⟩ := List.append_inj h hlen
  exact ⟨v, w, hbefore, hafter, rfl⟩

theorem toByteArray_of_append {u : String} {before after : List UInt8}
    (h : before ++ after = strBytes u) :
    u.toByteArray = before.toByteArray ++ after.toByteArray ∧
      (⟨before.length⟩ : String.Pos.Raw) ≤ u.rawEndPos := by
  constructor
  · rw [← toByteArray_strBytes, ← h]
    exact ByteArray.ext (by simp)
  · rw [String.Pos.Raw.le_iff, String.byteIdx_rawEndPos, ← length_strBytes, ← h, List.length_append]
    exact Nat.le_add_right _ _

/-- What follows the bytes of a string in those of another one is a string. -/
theorem exists_of_strBytes_append {t u : String} {rest : List UInt8}
    (h : strBytes t ++ rest = strBytes u) : ∃ v, rest = strBytes v ∧ u = t ++ v := by
  obtain ⟨hbytes, hle⟩ := toByteArray_of_append h
  have hpos : String.Pos.Raw.IsValid u ⟨(strBytes t).length⟩ := by
    refine String.Pos.Raw.isValid_iff_isValidUTF8_extract_zero.mpr ⟨hle, ?_⟩
    rw [hbytes, ByteArray.extract_append_eq_left (by simp), toByteArray_strBytes]
    exact t.isValidUTF8
  obtain ⟨v, w, hv, hw, rfl⟩ := exists_of_isValid h hpos
  exact ⟨w, hw, by rw [strBytes_injective hv]⟩

/-- What precedes them is one too. -/
theorem exists_of_append_strBytes {t u : String} {before : List UInt8}
    (h : before ++ strBytes t = strBytes u) : ∃ v, before = strBytes v ∧ u = v ++ t := by
  obtain ⟨hbytes, hle⟩ := toByteArray_of_append h
  have hpos : String.Pos.Raw.IsValid u ⟨before.length⟩ := by
    refine String.Pos.Raw.isValid_iff_isValidUTF8_extract_utf8ByteSize.mpr ⟨hle, ?_⟩
    have hsize : u.utf8ByteSize = (before.toByteArray ++ (strBytes t).toByteArray).size := by
      rw [← hbytes, String.size_toByteArray]
    rw [hbytes, hsize, ByteArray.extract_append_eq_right (by simp) ByteArray.size_append,
      toByteArray_strBytes]
    exact t.isValidUTF8
  obtain ⟨v, w, hv, hw, rfl⟩ := exists_of_isValid h hpos
  exact ⟨v, hv, by rw [strBytes_injective hw]⟩

/-- `char::is_whitespace`. -/
def isWhitespace (c : Char) : Bool :=
  [0x09, 0x0A, 0x0B, 0x0C, 0x0D, 0x20, 0x85, 0xA0, 0x1680, 0x2028, 0x2029, 0x202F, 0x205F,
    0x3000].contains c.val || (0x2000 ≤ c.val && c.val ≤ 0x200A)

/-! ## The file -/

namespace Wal

section

-- `serde_json`: an action as text, and the action that a text is
variable (text : Action → String) (parse : String → Option Action)

/-- What `persist_action` appends for an action. -/
def line (a : Action) : List UInt8 := strBytes (text a ++ "\n")

/-- A WAL that was only ever appended to. -/
def bytes (l : List Action) : List UInt8 := l.flatMap (line text)

/-- The actions `replay_doc` reads from a WAL. -/
def read (file : List UInt8) : List Action :=
  match readString file with
  | none => []
  | some content =>
    ((lines '\n' '\r' content.toList).filter fun l => !l.all isWhitespace).filterMap fun l =>
      parse (String.ofList l)

/-- What the WAL relies on, for the actions that are written: the text of an action is one line, a
    JSON object; it is read back; and a beginning of it that is continued by a whole one is no
    action. -/
structure JsonLines (S : Set Action) : Prop where
  roundTrip : ∀ a ∈ S, parse (text a) = some a
  oneLine : ∀ a ∈ S, '\n' ∉ (text a).toList
  opens : ∀ a ∈ S, (text a).toList.head? = some '\x7b'
  closes : ∀ a ∈ S, (text a).toList.getLast? = some '\x7d'
  joined : ∀ a ∈ S, ∀ b ∈ S, ∀ p : String, p ≠ "" → p.toList <+: (text a).toList →
    parse (p ++ text b) = none

/-! ## A crash -/

/-- The actions whose lines lie in the first `n` bytes of the WAL, -/
def written : List Action → ℕ → List Action
  | [], _ => []
  | a :: l, n => if (line text a).length ≤ n then a :: written l (n - (line text a).length) else []

/-- and the bytes after the last of these lines. -/
def tornTail : List Action → ℕ → List UInt8
  | [], _ => []
  | a :: l, n =>
    if (line text a).length ≤ n then tornTail l (n - (line text a).length)
    else (line text a).take n

/-- The WAL of `l` is cut after `n` bytes, and `later` is appended: every action that was written
    whole is read, as often as it was written, and so is every later one. -/
def Recovers (l : List Action) (n : ℕ) (later : List Action) : Prop :=
  (written text l n ++ later).Sublist (read parse ((bytes text l).take n ++ bytes text later))

end

variable {text : Action → String} {parse : String → Option Action} {l later : List Action}

theorem take_bytes : ∀ (l : List Action) (n : ℕ),
    (bytes text l).take n = bytes text (written text l n) ++ tornTail text l n := by
  intro l
  induction l with
  | nil => exact fun n => List.take_nil
  | cons a l ih =>
    intro n
    unfold bytes written tornTail
    rw [List.flatMap_cons]
    split
    · next hle =>
      rw [List.take_append, List.take_of_length_le hle, List.flatMap_cons, List.append_assoc]
      exact congrArg _ (ih _)
    · next hlt =>
      rw [List.take_append_of_le_length (Nat.le_of_not_le hlt)]
      rfl

theorem written_subset : ∀ (l : List Action) (n : ℕ), ∀ a ∈ written text l n, a ∈ l := by
  intro l
  induction l with
  | nil => exact fun n a ha => ha
  | cons b l ih =>
    intro n a ha
    unfold written at ha
    split at ha
    · rcases List.mem_cons.mp ha with rfl | ha
      · exact List.mem_cons_self
      · exact List.mem_cons_of_mem b (ih _ a ha)
    · exact absurd ha List.not_mem_nil

/-- What is left of a torn line is a beginning of the text. -/
theorem tornTail_prefix : ∀ (l : List Action) (n : ℕ), tornTail text l n ≠ [] →
    ∃ a ∈ l, tornTail text l n <+: strBytes (text a) := by
  intro l
  induction l with
  | nil => exact fun n h => absurd rfl h
  | cons a l ih =>
    intro n h
    unfold tornTail at h ⊢
    split
    · next hle =>
      rw [if_pos hle] at h
      obtain ⟨b, hb, hpre⟩ := ih _ h
      exact ⟨b, List.mem_cons_of_mem a hb, hpre⟩
    · next hlt =>
      refine ⟨a, List.mem_cons_self, ?_⟩
      have hline : line text a = strBytes (text a) ++ strBytes "\n" := strBytes_append _ _
      have hshort : n ≤ (strBytes (text a)).length := by
        rw [hline, List.length_append, length_strBytes "\n",
          show ("\n" : String).utf8ByteSize = 1 from rfl] at hlt
        omega
      rw [hline, List.take_append_of_le_length hshort]
      exact List.take_prefix n _

/-- The WAL as a string. -/
def content (text : Action → String) (l : List Action) : String :=
  String.ofList (l.flatMap fun a => (text a).toList ++ ['\n'])

theorem bytes_eq (l : List Action) : bytes text l = strBytes (content text l) := by
  induction l with
  | nil => exact (strBytes_eq "").symm
  | cons a l ih =>
    have hcons : content text (a :: l) = (text a ++ "\n") ++ content text l := by
      unfold content
      rw [List.flatMap_cons, String.ofList_append, String.ofList_append, String.ofList_toList]
    unfold bytes at ih ⊢
    rw [List.flatMap_cons, ih, hcons, strBytes_append]
    rfl

/-! ## Reading -/

variable {S : Set Action}

theorem read_strBytes (t : String) : read parse (strBytes t) =
    ((lines '\n' '\r' t.toList).filter fun l => !l.all isWhitespace).filterMap fun l =>
      parse (String.ofList l) := by
  unfold read
  rw [readString_strBytes]

theorem read_nil : read parse [] = [] := by
  rw [show ([] : List UInt8) = strBytes "" from (strBytes_eq "").symm, read_strBytes]
  rfl

/-- A file that is no string holds no action. -/
theorem read_of_none {file : List UInt8} (h : readString file = none) : read parse file = [] := by
  unfold read
  rw [h]

theorem JsonLines.notReturn (hc : JsonLines text parse S) {a : Action} (ha : a ∈ S) :
    (text a).toList.getLast? ≠ some '\r' := by
  rw [hc.closes a ha]
  decide

/-- The line of an action is read as that action. -/
theorem JsonLines.read_map (hc : JsonLines text parse S) : ∀ {l : List Action}, (∀ a ∈ l, a ∈ S) →
    ((l.map fun a => (text a).toList).filter fun l => !l.all isWhitespace).filterMap
      (fun l => parse (String.ofList l)) = l := by
  intro l hl
  induction l with
  | nil => rfl
  | cons a l ih =>
    have ha := hl a List.mem_cons_self
    have hfull : (!(text a).toList.all isWhitespace) = true := by
      obtain ⟨rest, hrest⟩ := List.head?_eq_some_iff.mp (hc.opens a ha)
      rw [hrest, List.all_cons, show isWhitespace '\x7b' = false from by decide]
      rfl
    rw [List.map_cons, List.filter_cons, if_pos hfull,
      List.filterMap_cons_some (b := a) (by rw [String.ofList_toList]; exact hc.roundTrip a ha),
      ih fun b hb => hl b (List.mem_cons_of_mem a hb)]

/-- **What was written whole is read, and then what follows.** -/
theorem JsonLines.read_append (hc : JsonLines text parse S) (hl : ∀ a ∈ l, a ∈ S) (t : String) :
    read parse (bytes text l ++ strBytes t) = l ++ read parse (strBytes t) := by
  rw [bytes_eq, ← strBytes_append, read_strBytes, read_strBytes, String.toList_append]
  unfold content
  rw [String.toList_ofList,
    lines_flatMap (fun a ha => hc.oneLine a (hl a ha)) (fun a ha => hc.notReturn (hl a ha)),
    List.filter_append, List.filterMap_append, hc.read_map hl]

/-- **A WAL that was only ever appended to is the list of its actions.** -/
theorem JsonLines.read_bytes (hc : JsonLines text parse S) (hl : ∀ a ∈ l, a ∈ S) :
    read parse (bytes text l) = l := by
  have happend := hc.read_append hl ""
  rw [show strBytes "" = [] from strBytes_eq "", List.append_nil, read_nil, List.append_nil]
    at happend
  exact happend

/-- **A broken line takes the next action with it.** -/
theorem JsonLines.read_broken (hc : JsonLines text parse S) {p : String} {a b : Action} (ha : a ∈ S)
    (hb : b ∈ S) (hl : ∀ c ∈ l, c ∈ S) (hp : p ≠ "") (hpre : p.toList <+: (text a).toList) :
    read parse (strBytes p ++ bytes text (b :: l)) = l := by
  have hbroken : '\n' ∉ (p ++ text b).toList := by
    rw [String.toList_append, List.mem_append, not_or]
    exact ⟨fun hmem => hc.oneLine a ha (hpre.subset hmem), hc.oneLine b hb⟩
  have hreturn : (p ++ text b).toList.getLast? ≠ some '\r' := by
    rw [String.toList_append, List.getLast?_append, hc.closes b hb, Option.some_or]
    decide
  have hrest : read parse (bytes text l) = l := hc.read_bytes hl
  rw [bytes_eq, read_strBytes] at hrest
  have hcontent : (p ++ content text (b :: l)).toList =
      (p ++ text b).toList ++ '\n' :: (content text l).toList := by
    unfold content
    simp [String.toList_append]
  have hnone : parse (String.ofList (p ++ text b).toList) = none := by
    rw [String.ofList_toList]
    exact hc.joined a ha b hb p hp hpre
  rw [bytes_eq, ← strBytes_append, read_strBytes, hcontent, lines_line hbroken hreturn,
    List.filter_cons]
  split
  · rw [List.filterMap_cons, hnone]
    exact hrest
  · exact hrest

/-! ## What a crash costs -/

/-- **A torn line that is continued costs more than its own action**: at least the next one too. -/
theorem not_recovers_of_torn (hc : JsonLines text parse {a | a ∈ l ++ later}) {n : ℕ}
    (htail : tornTail text l n ≠ []) (hlater : later ≠ []) : ¬ Recovers text parse l n later := by
  obtain ⟨b, rest, rfl⟩ := List.exists_cons_of_ne_nil hlater
  intro hsub
  have hlen := hsub.length_le
  rw [take_bytes, List.append_assoc] at hlen
  cases hread : readString (bytes text (written text l n) ++
      (tornTail text l n ++ bytes text (b :: rest))) with
  | none =>
    rw [read_of_none hread, List.length_append, List.length_cons, List.length_nil] at hlen
    omega
  | some u =>
    -- the torn line is a string, and the beginning of the text of an action
    have hu := strBytes_of_readString hread
    rw [bytes_eq] at hu
    obtain ⟨v, hv, -⟩ := exists_of_strBytes_append hu
    rw [bytes_eq] at hv
    obtain ⟨p, hp, -⟩ := exists_of_append_strBytes hv
    obtain ⟨a, ha, r, hr⟩ := tornTail_prefix l n htail
    rw [hp] at hr
    obtain ⟨q, -, hq⟩ := exists_of_strBytes_append hr
    have hpre : p.toList <+: (text a).toList := by
      rw [hq, String.toList_append]
      exact List.prefix_append _ _
    have hne : p ≠ "" := by
      rintro rfl
      exact htail (hp.trans (strBytes_eq ""))
    have hin : ∀ c ∈ l, c ∈ {a | a ∈ l ++ b :: rest} := fun c hc => List.mem_append_left _ hc
    have hbroken := hc.read_broken (hin a ha) (List.mem_append_right _ List.mem_cons_self)
      (fun c hmem => List.mem_append_right _ (List.mem_cons_of_mem b hmem)) hne hpre
    rw [hp, bytes_eq (b :: rest), ← strBytes_append,
      hc.read_append fun c hmem => hin c (written_subset l n c hmem), strBytes_append,
      ← bytes_eq, hbroken, List.length_append, List.length_append, List.length_cons] at hlen
    omega

/-- **Exactly when a torn line costs at most its own action**: there is none, or nothing is appended
    after it and it does not end inside a character (or nothing was written whole). -/
theorem recovers_iff (hc : JsonLines text parse {a | a ∈ l ++ later}) (n : ℕ) :
    Recovers text parse l n later ↔ tornTail text l n = [] ∨
      later = [] ∧ (written text l n = [] ∨ (readString (tornTail text l n)).isSome = true) := by
  have hwritten : ∀ a ∈ written text l n, a ∈ {a | a ∈ l ++ later} := fun a ha =>
    List.mem_append_left _ (written_subset l n a ha)
  by_cases htail : tornTail text l n = []
  · refine iff_of_true ?_ (Or.inl htail)
    unfold Recovers
    rw [take_bytes, htail, List.append_nil, bytes_eq later,
      hc.read_append hwritten, ← bytes_eq,
      hc.read_bytes fun a ha => List.mem_append_right _ ha]
  · by_cases hlater : later = []
    · subst hlater
      rw [or_iff_right htail, and_iff_right rfl]
      unfold Recovers
      rw [take_bytes, List.append_nil, show bytes text [] = [] from rfl, List.append_nil]
      cases hread : readString (tornTail text l n) with
      | some p =>
        refine iff_of_true ?_ (Or.inr rfl)
        rw [strBytes_of_readString hread, hc.read_append hwritten]
        exact List.sublist_append_left _ _
      | none =>
        -- half a character makes the whole file unreadable
        have hfile : readString (bytes text (written text l n) ++ tornTail text l n) = none := by
          cases hu : readString (bytes text (written text l n) ++ tornTail text l n) with
          | none => rfl
          | some u =>
            have hbytes := strBytes_of_readString hu
            rw [bytes_eq] at hbytes
            obtain ⟨v, hv, -⟩ := exists_of_strBytes_append hbytes
            rw [hv, readString_strBytes] at hread
            cases hread
        rw [read_of_none hfile, List.sublist_nil]
        exact ⟨Or.inl, fun h => h.resolve_right Bool.false_ne_true⟩
    · refine iff_of_false (not_recovers_of_torn hc htail hlater) ?_
      rintro (h | ⟨h, -⟩)
      · exact htail h
      · exact hlater h

/-! ## The list of the WAL -/

section

variable [Primitives]

/-- **The WAL of the store is what reading its file gives**, and `persistAction` appends to both. -/
theorem JsonLines.read_persistAction (hc : JsonLines text parse S) {s : Inner} {io : Io}
    (hio : io.wal = true) {a : Action} (ha : a ∈ S) (hl : ∀ b ∈ l, b ∈ S)
    (hwal : s.disk.alog[a.docId]?.getD [] = l) :
    (s.persistAction io a).disk.alog[a.docId]?.getD [] =
      read parse (bytes text l ++ line text a) := by
  have hbytes : bytes text l ++ line text a = bytes text (l ++ [a]) := by
    unfold bytes
    rw [List.flatMap_append, List.flatMap_singleton]
  rw [hbytes, hc.read_bytes (List.forall_mem_append.mpr ⟨hl, List.forall_mem_singleton.mpr ha⟩)]
  unfold Inner.persistAction
  rw [if_pos hio]
  dsimp only
  rw [Std.ExtTreeMap.getElem?_insert_self, hwal, Option.getD_some]

end

/-! ## A torn city -/

/-- Alice sets a field to a word with an umlaut. -/
def zurich : Action where
  docId := 1
  model := ModelRef.new "open" "1"
  kind := "set"
  payload := .object [("field", .string "city"), ("value", .string "Zürich")]
  ts := 5
  clock := ⟨(∅ : Std.ExtTreeMap Origin U64).insert "alice" 1⟩
  origin := "alice"
  cosig := []
  prevHash := none
  space := none
  sig := 0

def zurichText : String :=
  "\x7b\"doc_id\":\"00000000-0000-0000-0000-000000000001\"," ++
  "\"model\":\x7b\"name\":\"open\",\"version\":\"1\",\"hash\":null\x7d,\"kind\":\"set\"," ++
  "\"payload\":\x7b\"field\":\"city\",\"value\":\"Zürich\"\x7d,\"ts\":5," ++
  "\"clock\":\x7b\"alice\":1\x7d,\"origin\":\"alice\",\"cosig\":[],\"prev_hash\":null," ++
  "\"sig\":\"" ++ String.ofList (List.replicate 128 '0') ++ "\"\x7d"

/-- Of the texts that occur below, only that of the action is one. -/
def zurichParse (t : String) : Option Action := if t = zurichText then some zurich else none

theorem zurichText_oneLine : '\n' ∉ zurichText.toList := by
  unfold zurichText
  simp only [String.toList_append, List.mem_append, not_or, String.toList_ofList]
  decide +kernel

theorem zurichText_opens : zurichText.toList.head? = some '\x7b' := by
  unfold zurichText
  simp only [String.toList_append, List.head?_append]
  decide +kernel

theorem zurichText_closes : zurichText.toList.getLast? = some '\x7d' := by
  unfold zurichText
  rw [String.toList_append, List.getLast?_append]
  decide +kernel

theorem zurich_lines {S : Set Action} (hS : ∀ a ∈ S, a = zurich) :
    JsonLines (fun _ => zurichText) zurichParse S := by
  refine ⟨?_, fun _ _ => zurichText_oneLine, fun _ _ => zurichText_opens,
    fun _ _ => zurichText_closes, ?_⟩
  · intro a ha
    rw [hS a ha]
    exact if_pos rfl
  · intro a _ b _ p hp _
    refine if_neg fun heq => hp ?_
    -- a text that begins with more of itself is longer
    have hlen := congrArg (fun t : String => t.toList.length) heq
    rw [String.toList_append, List.length_append] at hlen
    exact String.toList_eq_nil_iff.mp (List.eq_nil_of_length_eq_zero (by omega))

theorem length_zurich : (line (fun _ => zurichText) zurich).length =
    (strBytes zurichText).length + 1 := by
  unfold line
  rw [strBytes_append, List.length_append, length_strBytes "\n"]
  rfl

/-- The line is cut off right after its end, and another one follows. -/
theorem recovers_whole_line :
    Recovers (fun _ => zurichText) zurichParse [zurich] ((strBytes zurichText).length + 1)
      [zurich] := by
  refine (recovers_iff (zurich_lines fun a ha => ?_) _).mpr (Or.inl ?_)
  · exact List.eq_of_mem_replicate (n := 2) ha
  · unfold tornTail
    rw [if_pos length_zurich.le]
    rfl

/-- **Only the line end is missing**, and the next action is lost too. -/
theorem next_action_is_lost :
    ¬ ∀ (text : Action → String) (parse : String → Option Action) (l : List Action) (n : ℕ)
      (later : List Action), JsonLines text parse {a | a ∈ l ++ later} →
        Recovers text parse l n later := by
  intro hall
  have hlines : JsonLines (fun _ => zurichText) zurichParse {a | a ∈ [zurich] ++ [zurich]} :=
    zurich_lines fun a ha => List.eq_of_mem_replicate (n := 2) ha
  refine not_recovers_of_torn (n := (strBytes zurichText).length) hlines ?_ (List.cons_ne_nil _ _)
    (hall _ _ _ _ _ hlines)
  unfold tornTail
  rw [if_neg (by rw [length_zurich]; omega)]
  unfold line
  rw [strBytes_append, List.take_left]
  intro hnil
  have hempty : zurichText = "" := strBytes_injective (hnil.trans (strBytes_eq "").symm)
  have hopens := zurichText_opens
  rw [hempty, String.toList_empty] at hopens
  cases hopens

end Wal

end PhReactor
