/-
  The check of the base URL of an LLM (`llm_base_url_ok` of `src/settings/mod.rs`).

  The check takes the host out of the URL by hand, and refuses it if it is an IPv4 address of the
  metadata range `169.254.0.0/16`.

  1. On a URI it finds the right authority (`hostport_text`): the delimiters before and after it do
     not occur in it.

  2. In the authority it looks for a colon or brackets, but not for the end of the user information,
     and of an address in brackets it asks whether it is an IPv4 address.
     `linkLocalText_hostOf_iff` says which authorities are refused.

  3. So a host of the range gets by when user information comes before it, or when it is written as
     an IPv6 address (`unreachable_iff`).  With user information that has an address of the range
     before its first colon the URL is refused, for that reason.
-/
import PhReactor.Lib.Uri

namespace PhReactor.LlmUrl

open Lib (Authority Host Ipv4 Uri isDecOctet decValue)

/-! ## The check -/

/-- `str::split_once` with a text. -/
def splitOnceAt (p : List Char) : List Char → Option (List Char × List Char)
  | [] => if p.isEmpty then some ([], []) else none
  | c :: l =>
    if p.isPrefixOf (c :: l) then some ([], (c :: l).drop p.length)
    else (splitOnceAt p l).map fun (a, b) => (c :: a, b)

/-- `IpAddr::from_str`, as far as it gives an IPv4 address: four octets. -/
def parseV4 (l : List Char) : Option ℕ :=
  let octets := l.splitOn '.'
  if octets.length = 4 ∧ octets.all isDecOctet then
    some (octets.foldl (fun n o => n * 256 + decValue o) 0)
  else none

def hostport (base : String) : List Char :=
  let afterScheme := ((splitOnceAt [':', '/', '/'] base.toList).map Prod.snd).getD base.toList
  afterScheme.takeWhile fun c => !(['/', '?', '#'].contains c)

def hostOf (hostport : List Char) : List Char :=
  match hostport with
  | '[' :: s => s.takeWhile (· != ']')
  | _ => hostport.takeWhile (· != ':')

/-- Refuse an LLM base URL whose host is a link-local address (the cloud metadata range). -/
def llmBaseUrlOk (base : String) : Except String Unit :=
  match parseV4 (hostOf (hostport base)) with
  | some v4 =>
    if v4 / 65536 = 169 * 256 + 254 then
      .error "refusing LLM request to a link-local (cloud metadata) address"
    else .ok ()
  | none => .ok ()

/-! ## Addresses of the range -/

def LinkLocal (bits : ℕ) : Prop := bits / 65536 = 169 * 256 + 254

/-- The text is an IPv4 address of the range. -/
def LinkLocalText (l : List Char) : Prop := ∃ a : Ipv4, l = a.text ∧ LinkLocal a.bits

theorem parseV4_eq_some_iff {l : List Char} {n : ℕ} :
    parseV4 l = some n ↔ ∃ a : Ipv4, l = a.text ∧ n = a.bits := by
  unfold parseV4
  dsimp only
  constructor
  · intro h
    split at h
    · next hoctets =>
      refine ⟨⟨l.splitOn '.', hoctets.1, List.all_eq_true.mp hoctets.2⟩, ?_,
        (Option.some.inj h).symm⟩
      exact (List.intercalate_splitOn '.').symm
    · cases h
  · rintro ⟨a, rfl, rfl⟩
    rw [a.splitOn_text, if_pos ⟨a.length_eq, List.all_eq_true.mpr a.valid⟩]
    rfl

/-- One text is one address. -/
theorem linkLocal_of_text_eq {v w : Ipv4} (h : v.text = w.text) (hw : LinkLocal w.bits) :
    LinkLocal v.bits := by
  have hoctets : v.octets = w.octets := by rw [← v.splitOn_text, h, w.splitOn_text]
  unfold Ipv4.bits at hw ⊢
  rwa [hoctets]

/-- What is accepted. -/
theorem llmBaseUrlOk_iff {base : String} :
    llmBaseUrlOk base = .ok () ↔ ¬ LinkLocalText (hostOf (hostport base)) := by
  unfold llmBaseUrlOk
  cases hparse : parseV4 (hostOf (hostport base)) with
  | none =>
    refine ⟨fun _ => ?_, fun _ => rfl⟩
    rintro ⟨a, htext, -⟩
    rw [parseV4_eq_some_iff.mpr ⟨a, htext, rfl⟩] at hparse
    cases hparse
  | some n =>
    obtain ⟨a, htext, rfl⟩ := parseV4_eq_some_iff.mp hparse
    dsimp only
    by_cases hlocal : a.bits / 65536 = 169 * 256 + 254
    · rw [if_pos hlocal]
      exact ⟨fun h => (nomatch h), fun h => absurd ⟨a, htext, hlocal⟩ h⟩
    · rw [if_neg hlocal]
      refine ⟨fun _ => ?_, fun _ => rfl⟩
      rintro ⟨a', htext', hlocal'⟩
      rw [parseV4_eq_some_iff.mpr ⟨a', htext', rfl⟩, Option.some.injEq] at hparse
      exact hlocal (hparse ▸ hlocal')

theorem LinkLocalText.mem {l : List Char} (h : LinkLocalText l) {c : Char} (hc : c ∈ l) :
    c = '.' ∨ c.isDigit = true := by
  obtain ⟨a, rfl, -⟩ := h
  exact Ipv4.mem_text hc

/-! ## The authority -/

/-- The first colon of a URI is after its scheme. -/
theorem splitOnceAt_scheme {scheme : List Char} (h : ':' ∉ scheme) (rest : List Char) :
    splitOnceAt [':', '/', '/'] (scheme ++ ':' :: '/' :: '/' :: rest) = some (scheme, rest) := by
  induction scheme with
  | nil => rfl
  | cons c scheme ih =>
    rw [List.mem_cons, not_or] at h
    have hno : [':', '/', '/'].isPrefixOf (c :: (scheme ++ ':' :: '/' :: '/' :: rest)) = false := by
      show (':' == c && _) = false
      rw [beq_eq_false_iff_ne.mpr h.1, Bool.false_and]
    rw [List.cons_append]
    unfold splitOnceAt
    rw [hno, if_neg Bool.false_ne_true, ih h.2]
    rfl

theorem hostport_text {u : Uri} {a : Authority} (ha : u.authority = some a) :
    hostport u.text = a.text := by
  have hall : ∀ c ∈ a.text, (!(['/', '?', '#'].contains c)) = true := by
    intro c hc
    have hchar := Authority.mem_text hc
    rw [Bool.not_eq_true', ← Bool.not_eq_true]
    intro hin
    have hmem : c ∈ ['/', '?', '#'] := List.contains_iff_mem.mp hin
    simp only [List.mem_cons, List.not_mem_nil, or_false] at hmem
    rcases hmem with rfl | rfl | rfl <;> exact absurd hchar (by decide)
  unfold hostport Uri.text
  rw [String.toList_ofList, ha]
  dsimp only [Option.elim_some]
  rw [List.append_assoc, List.cons_append, List.cons_append, List.cons_append,
    splitOnceAt_scheme u.colon_not_mem_scheme]
  show (a.text ++ u.tail).takeWhile _ = a.text
  rw [List.takeWhile_append_of_pos hall]
  rcases Uri.tail_cases ha with htail | ⟨c, rest, htail, hc⟩
  · rw [htail, List.takeWhile_nil, List.append_nil]
  · rw [htail, List.takeWhile_cons_of_neg, List.append_nil]
    rw [List.contains_iff_mem.mpr hc]
    decide

theorem hostOf_of_head {l : List Char} (h : l.head? ≠ some '[') :
    hostOf l = l.takeWhile (· != ':') := by
  unfold hostOf
  split
  · exact absurd rfl h
  · rfl

/-- A text without a colon is read up to the port. -/
theorem takeWhile_port {l : List Char} (h : ':' ∉ l) (port : Option (List Char)) :
    (l ++ port.elim [] fun p => ':' :: p).takeWhile (· != ':') = l := by
  have hall : ∀ c ∈ l, (c != ':') = true := fun c hc => bne_iff_ne.mpr fun heq => h (heq ▸ hc)
  rw [List.takeWhile_append_of_pos hall]
  cases port with
  | none => exact List.append_nil l
  | some p => exact List.append_nil l

/-- A host without brackets, and nothing before it. -/
theorem hostOf_plain {l : List Char} (hcolon : ':' ∉ l) (hbracket : '[' ∉ l)
    (port : Option (List Char)) : hostOf (l ++ port.elim [] fun p => ':' :: p) = l := by
  rw [hostOf_of_head, takeWhile_port hcolon]
  intro hhead
  have hmem := List.mem_of_mem_head? hhead
  rw [List.mem_append] at hmem
  rcases hmem with hmem | hmem
  · exact hbracket hmem
  · cases l with
    | nil =>
      cases port with
      | none => cases hhead
      | some p => exact absurd (Option.some.inj hhead) (by decide)
    | cons c l =>
      rw [List.cons_append, List.head?_cons, Option.some.injEq] at hhead
      exact hbracket (hhead ▸ List.mem_cons_self)

/-- A host in brackets, and nothing before it. -/
theorem hostOf_bracket {l : List Char} (h : ∀ c ∈ l, Lib.isLiteralChar c = true)
    (rest : List Char) : hostOf ('[' :: l ++ [']'] ++ rest) = l := by
  have hall : ∀ c ∈ l, (c != ']') = true := by
    intro c hc
    rw [bne_iff_ne]
    rintro rfl
    exact absurd (h _ hc) (by decide)
  show (l ++ [']'] ++ rest).takeWhile _ = l
  rw [List.append_assoc, List.takeWhile_append_of_pos hall]
  exact List.append_nil l

/-- With user information before it the host is not looked at. -/
theorem linkLocalText_hostOf_userinfo {l : List Char} (hbracket : '[' ∉ l) (rest : List Char) :
    LinkLocalText (hostOf (l ++ ['@'] ++ rest)) ↔
      ∃ user password, l = user ++ ':' :: password ∧ LinkLocalText user := by
  have hhead : (l ++ ['@'] ++ rest).head? ≠ some '[' := by
    cases l with
    | nil => exact fun h => absurd (Option.some.inj h) (by decide)
    | cons c l => exact fun h => hbracket (Option.some.inj h ▸ List.mem_cons_self)
  rw [hostOf_of_head hhead, List.append_assoc]
  constructor
  · intro hlocal
    by_cases hcolon : ':' ∈ l
    · obtain ⟨user, password, rfl, huser⟩ := List.eq_append_cons_of_mem hcolon
      have hall : ∀ c ∈ user, (c != ':') = true := fun c hc =>
        bne_iff_ne.mpr fun heq => huser (heq ▸ hc)
      rw [List.append_assoc, List.takeWhile_append_of_pos hall] at hlocal
      refine ⟨user, password, rfl, ?_⟩
      have hstop : (':' :: password ++ (['@'] ++ rest)).takeWhile (· != ':') = [] := rfl
      rwa [hstop, List.append_nil] at hlocal
    · have hall : ∀ c ∈ l, (c != ':') = true := fun c hc =>
        bne_iff_ne.mpr fun heq => hcolon (heq ▸ hc)
      rw [List.takeWhile_append_of_pos hall] at hlocal
      -- the sign after the user information is in no address
      have hat : '@' ∈ l ++ (['@'] ++ rest).takeWhile (· != ':') :=
        List.mem_append_right l List.mem_cons_self
      exact absurd (hlocal.mem hat) (by decide)
  · rintro ⟨user, password, rfl, hlocal⟩
    have hall : ∀ c ∈ user, (c != ':') = true := by
      intro c hc
      rw [bne_iff_ne]
      rintro rfl
      exact absurd (hlocal.mem hc) (by decide)
    rw [List.append_assoc, List.takeWhile_append_of_pos hall]
    have hstop : (':' :: password ++ (['@'] ++ rest)).takeWhile (· != ':') = [] := rfl
    rwa [hstop, List.append_nil]

/-- **Which authorities are refused**: an IPv4 address of the range as the host and nothing before
    it, or user information that has one before its first colon. -/
theorem linkLocalText_hostOf_iff (a : Authority) : LinkLocalText (hostOf a.text) ↔
    (a.userinfo = none ∧ ∃ v, a.host = .ipv4 v ∧ LinkLocal v.bits) ∨
    ∃ user password, a.userinfo = some (user ++ ':' :: password) ∧ LinkLocalText user := by
  obtain ⟨userinfo, host, port, huser, hport⟩ := a
  unfold Authority.text
  dsimp only
  cases userinfo with
  | some l =>
    have hbracket : '[' ∉ l := fun hin =>
      absurd ((huser l rfl).mem hin) (by decide)
    show LinkLocalText (hostOf (l ++ ['@'] ++ host.text ++ _)) ↔ _
    rw [List.append_assoc, linkLocalText_hostOf_userinfo hbracket]
    simp
  | none =>
    show LinkLocalText (hostOf (host.text ++ _)) ↔ _
    simp only [reduceCtorEq, false_and, exists_false, or_false, true_and]
    cases host with
    | ipv6 v =>
      show LinkLocalText (hostOf ('[' :: v.text ++ [']'] ++ _)) ↔ _
      rw [hostOf_bracket fun c hc => Lib.Ipv6.mem_text hc]
      refine ⟨fun h => absurd (h.mem v.colon_mem_text) (by decide), ?_⟩
      rintro ⟨w, h, -⟩
      cases h
    | ipvFuture c version rest hc hversion hrest =>
      have hliteral : ∀ d ∈ c :: version ++ '.' :: rest, Lib.isLiteralChar d = true := by
        intro d hd
        rw [List.mem_append, List.mem_cons, List.mem_cons] at hd
        rcases hd with (rfl | hd) | rfl | hd
        · rcases hc with rfl | rfl <;> decide
        · exact Lib.isLiteralChar_of_isHexdig (hversion.2 d hd)
        · decide
        · unfold Lib.isLiteralChar
          rw [hrest.2 d hd, Bool.true_or]
      show LinkLocalText (hostOf ('[' :: (c :: version ++ '.' :: rest) ++ [']'] ++ _)) ↔ _
      rw [hostOf_bracket hliteral]
      refine ⟨fun h => ?_, ?_⟩
      · have hletter := h.mem (List.mem_append_left _ List.mem_cons_self : c ∈ _)
        rcases hc with rfl | rfl <;> exact absurd hletter (by decide)
      · rintro ⟨w, h, -⟩
        cases h
    | ipv4 v =>
      have hcolon : ':' ∉ v.text := fun hin => absurd (Ipv4.mem_text hin) (by decide)
      have hbracket : '[' ∉ v.text := fun hin => absurd (Ipv4.mem_text hin) (by decide)
      show LinkLocalText (hostOf (v.text ++ _)) ↔ _
      rw [hostOf_plain hcolon hbracket]
      constructor
      · rintro ⟨w, htext, hlocal⟩
        exact ⟨v, rfl, linkLocal_of_text_eq htext hlocal⟩
      · rintro ⟨w, h, hlocal⟩
        cases h
        exact ⟨v, rfl, hlocal⟩
    | name l hl hname =>
      have hcolon : ':' ∉ l := fun hin => absurd (hl.mem hin) (by decide)
      have hbracket : '[' ∉ l := fun hin => absurd (hl.mem hin) (by decide)
      show LinkLocalText (hostOf (l ++ _)) ↔ _
      rw [hostOf_plain hcolon hbracket]
      refine ⟨?_, ?_⟩
      · rintro ⟨v, htext, -⟩
        exact absurd htext (hname v)
      · rintro ⟨v, h, -⟩
        cases h

/-! ## The metadata range -/

/-- The host of the URI is an address of the range. -/
def LinkLocalHost (u : Uri) : Prop :=
  ∃ a bits, u.authority = some a ∧ a.host.ipv4? = some bits ∧ LinkLocal bits

/-- The host is an IPv4 address with nothing before it, or the user information has an address of
    the range before its first colon. -/
def Recognised (u : Uri) : Prop :=
  ∃ a, u.authority = some a ∧ ((a.userinfo = none ∧ ∃ v, a.host = .ipv4 v) ∨
    ∃ user password, a.userinfo = some (user ++ ':' :: password) ∧ LinkLocalText user)

/-- **When the range cannot be reached through a URI**: if its host is not of the range, or the host
    is recognised. -/
theorem unreachable_iff (u : Uri) :
    (llmBaseUrlOk u.text = .ok () → ¬ LinkLocalHost u) ↔ ¬ LinkLocalHost u ∨ Recognised u := by
  rw [llmBaseUrlOk_iff]
  constructor
  · intro h
    by_cases hhost : LinkLocalHost u
    · obtain ⟨a, bits, ha, hbits, hlocal⟩ := hhost
      have hrefused : LinkLocalText (hostOf (hostport u.text)) :=
        by_contra fun hnot => h hnot ⟨a, bits, ha, hbits, hlocal⟩
      rw [hostport_text ha, linkLocalText_hostOf_iff] at hrefused
      refine Or.inr ⟨a, ha, hrefused.imp_left fun h => ⟨h.1, ?_⟩⟩
      obtain ⟨v, hv, -⟩ := h.2
      exact ⟨v, hv⟩
    · exact Or.inl hhost
  · rintro (hnot | ⟨a, ha, hrecognised⟩) haccepted hhost
    · exact hnot hhost
    · obtain ⟨a', bits, ha', hbits, hlocal⟩ := hhost
      obtain rfl : a = a' := Option.some.inj (ha.symm.trans ha')
      refine haccepted ?_
      rw [hostport_text ha, linkLocalText_hostOf_iff]
      refine hrecognised.imp_left fun h => ⟨h.1, ?_⟩
      obtain ⟨v, hv⟩ := h.2
      rw [hv] at hbits
      exact ⟨v, hv, Option.some.inj hbits ▸ hlocal⟩

/-- `http://x@169.254.169.254/` -/
def behindUser : Uri where
  scheme := "http".toList
  authority := some
    { userinfo := some ['x']
      host := .ipv4 ⟨["169".toList, "254".toList, "169".toList, "254".toList], rfl, by decide⟩
      port := none
      userinfo_valid := by
        rintro l ⟨⟩
        exact .char (by decide) .nil
      port_valid := by rintro l ⟨⟩ }
  path := ['/']
  query := none
  fragment := none
  scheme_valid := ⟨⟨'h', rfl, by decide⟩, List.all_eq_true.mp rfl⟩
  path_valid := .char (by decide) .nil
  path_begins := Or.inr rfl
  query_valid := by rintro l ⟨⟩
  fragment_valid := by rintro l ⟨⟩

/-- The metadata address behind a user name is accepted. -/
theorem reachable_behind_user : behindUser.text = "http://x@169.254.169.254/" ∧
    ¬ (llmBaseUrlOk behindUser.text = .ok () → ¬ LinkLocalHost behindUser) := by
  have htext : behindUser.text = "http://x@169.254.169.254/" := by decide +kernel
  refine ⟨htext, fun h => h ?_ ⟨_, _, rfl, rfl, ?_⟩⟩
  · rw [htext]
    rfl
  · unfold LinkLocal
    decide +kernel

end PhReactor.LlmUrl
