/-
  Which publishers this node accepts packages and releases from (`src/package/trust.rs`, and the
  handlers of `src/settings/packages.rs` that change the trust store).

  A package or release names its publisher's ed25519 key as a hex TEXT.  The signature is verified
  under the key that the text decodes to, in either case of the digits; the trust store compares the
  texts.

  1. Three handlers change the store: `installPkg` pins the manifest's own spelling,
     `trustPublisher` the trimmed, lower-case one; `revokePublisher` removes the text it is given.
     What a handler decided about a key, if it succeeded, is `TrustCall.decided`.

  2. What one call can do is `TrustCall.exec_cases`; from it, who is trusted after a call
     (`isTrusted_exec`): a success acts on its own spelling alone, and a torn file ends all trust.

  3. Trust therefore follows the spelling.  `trust_follows_key_iff` says exactly when it follows the
     key all the same, for an artifact and along a whole run: every success about the key under
     another spelling finds the artifact's own spelling as it would leave it, and no save tears the
     file while that spelling is trusted.

  4. A key that was pinned in capitals survives the revocation of its lower-case spelling
     (`revoked_key_still_trusted`).

  The file is read and written whole.  A save can fail before it touches the file (`kept`), or when
  the old content is gone already (`torn`).
-/
import PhReactor.Lib.Latest
import PhReactor.Lib.Machine
import PhReactor.Sync.Wire
import PhReactor.Update.Release

set_option linter.unusedSectionVars false

namespace PhReactor

/-! ## The trust store -/

/-- One trusted publisher, as recorded when the operator approved it. -/
structure TrustedPublisher where
  key : String
  name : String
  approvedAt : String
  deriving DecidableEq

structure TrustStore where
  publishers : Std.ExtTreeMap String TrustedPublisher

namespace TrustStore

def empty : TrustStore := ⟨∅⟩

def isTrusted (s : TrustStore) (key : String) : Bool := s.publishers.contains key

/-- Records an operator's decision; the name first recorded stays. -/
def trust (s : TrustStore) (key name now : String) : TrustStore :=
  match s.publishers[key]? with
  | some _ => s
  | none => ⟨s.publishers.insert key ⟨key, name, now⟩⟩

/-- Withdraws trust. -/
def revoke (s : TrustStore) (key : String) : TrustStore × Bool :=
  (⟨s.publishers.erase key⟩, s.publishers.contains key)

theorem isTrusted_empty (x : String) : empty.isTrusted x = false := by
  show (∅ : Std.ExtTreeMap String TrustedPublisher).contains x = false
  exact Std.ExtTreeMap.contains_empty

theorem isTrusted_trust (s : TrustStore) (key name now x : String) :
    (s.trust key name now).isTrusted x = if key = x then true else s.isTrusted x := by
  unfold trust
  split
  · next p hp =>
    -- trusted already
    split
    · next hx =>
      subst hx
      show s.publishers.contains key = true
      rw [Std.ExtTreeMap.contains_eq_isSome_getElem?, hp]
      rfl
    · rfl
  · show (s.publishers.insert key _).contains x = _
    rw [Std.ExtTreeMap.contains_insert]
    by_cases hx : key = x
    · rw [if_pos hx, beq_iff_eq.mpr (Std.LawfulEqCmp.compare_eq_iff_eq.mpr hx), Bool.true_or]
    · rw [if_neg hx, beq_eq_false_iff_ne.mpr (mt Std.LawfulEqCmp.compare_eq_iff_eq.mp hx),
        Bool.false_or]
      rfl

theorem isTrusted_revoke (s : TrustStore) (key x : String) :
    (s.revoke key).1.isTrusted x = if key = x then false else s.isTrusted x := by
  show (s.publishers.erase key).contains x = _
  rw [Std.ExtTreeMap.contains_erase]
  by_cases hx : key = x
  · rw [if_pos hx, bne, beq_iff_eq.mpr (Std.LawfulEqCmp.compare_eq_iff_eq.mpr hx), Bool.not_true,
      Bool.false_and]
  · rw [if_neg hx, bne, beq_eq_false_iff_ne.mpr (mt Std.LawfulEqCmp.compare_eq_iff_eq.mp hx),
      Bool.not_false, Bool.true_and]
    rfl

end TrustStore

/-- What is in the file of publishers. -/
inductive TrustFile where
  | absent
  /-- Not a trust store: nobody is trusted. -/
  | unreadable
  | readable (s : TrustStore)

/-- How writing the file ends. -/
inductive SaveOutcome where
  | ok
  /-- It fails before the file is opened. -/
  | kept
  /-- It fails when the old content is gone. -/
  | torn
  deriving DecidableEq

/-- `TrustStore::load`. -/
def TrustFile.load : TrustFile → TrustStore
  | .readable s => s
  | _ => TrustStore.empty

/-- `TrustStore::save`, and whether it succeeds. -/
def TrustFile.save (f : TrustFile) (s : TrustStore) : SaveOutcome → TrustFile × Bool
  | .ok => (.readable s, true)
  | .kept => (f, false)
  | .torn => (.unreadable, false)

def TrustFile.isTrusted (f : TrustFile) (key : String) : Bool := f.load.isTrusted key

/-! ## Signed artifacts -/

/-- What `verify` reads of a package manifest or a release: both are verified in the same way.
    `message` is `message_bytes`, the JSON of everything but the signature. -/
structure Artifact where
  publisherKey : String
  publisherName : String
  message : List UInt8
  sig : String

/-- Why an artifact does not verify. -/
inductive VerifyError where
  | keyNotHex
  | keyLength
  | keyInvalid
  | sigNotHex
  | sigLength
  | altered
  deriving DecidableEq

def VerifyError.describe : VerifyError → String
  | .keyNotHex => "publisher_key is not hex"
  | .keyLength => "publisher_key must be 32 bytes"
  | .keyInvalid => "publisher_key is not a valid ed25519 key"
  | .sigNotHex => "signature is not hex"
  | .sigLength => "signature must be 64 bytes"
  | .altered => "signature does not verify: the package was altered"

section

variable [Primitives]

/-- `verify`, and the key it verified under.  `verifies` is `VerifyingKey::verify`. -/
def Artifact.verify (verifies : PublicKey → List UInt8 → Sig → Bool) (a : Artifact) :
    Except VerifyError PublicKey :=
  match hexDecode a.publisherKey with
  | none => .error .keyNotHex
  | some keyBytes =>
    if keyBytes.length ≠ 32 then .error .keyLength
    else
      let key : PublicKey := Fin.ofNat _ (ofBeBytes keyBytes)
      if !Primitives.keyOk key then .error .keyInvalid
      else
        match hexDecode a.sig with
        | none => .error .sigNotHex
        | some sigBytes =>
          if sigBytes.length ≠ 64 then .error .sigLength
          else if verifies key a.message (Fin.ofNat _ (ofBeBytes sigBytes)) then .ok key
          else .error .altered

/-- The key is the one that the text decodes to. -/
theorem pubkeyOfHex_of_verify {verifies : PublicKey → List UInt8 → Sig → Bool} {a : Artifact}
    {key : PublicKey} (h : a.verify verifies = .ok key) :
    pubkeyOfHex a.publisherKey = some key := by
  unfold Artifact.verify at h
  unfold pubkeyOfHex
  cases hdec : hexDecode a.publisherKey with
  | none =>
    rw [hdec] at h
    cases h
  | some keyBytes =>
    rw [hdec] at h
    dsimp only at h
    split at h
    · cases h
    · next hlen =>
      rw [Option.bind_some, if_pos (not_not.mp hlen)]
      split at h
      · cases h
      · split at h
        · cases h
        · split at h
          · cases h
          · split at h
            · rw [Except.ok.inj h]
            · cases h

/-! ## The handlers -/

/-- How a handler answers, as far as trust is concerned. -/
inductive TrustReply where
  /-- `400`. -/
  | badRequest
  /-- `409`: the publisher is not trusted, and the operator has not said so. -/
  | conflict
  /-- `404`. -/
  | notFound
  /-- `500`. -/
  | saveFailed
  /-- The publisher is trusted: the install goes on, or the key was recorded. -/
  | trusted
  | revoked
  deriving DecidableEq

/-- The store is saved and the handler goes on, or it answers `500`. -/
def saveAnd (f : TrustFile) (s : TrustStore) (save : SaveOutcome) (reply : TrustReply) :
    TrustFile × TrustReply :=
  match f.save s save with
  | (f, true) => (f, reply)
  | (f, false) => (f, .saveFailed)

/-- `install_pkg`, up to where the publisher is trusted. -/
def installPkg (verifies : PublicKey → List UInt8 → Sig → Bool) (f : TrustFile) (a : Artifact)
    (trustPublisher : Bool) (now : String) (save : SaveOutcome) : TrustFile × TrustReply :=
  match a.verify verifies with
  | .error _ => (f, .badRequest)
  | .ok _ =>
    let trust := f.load
    if trust.isTrusted a.publisherKey then (f, .trusted)
    else if !trustPublisher then (f, .conflict)
    else saveAnd f (trust.trust a.publisherKey a.publisherName now) save .trusted

/-- `key.trim().to_lowercase()`.  No character outside of ASCII becomes a hex digit, so for a text
    that is a key afterwards the ASCII letters are all there is to it. -/
def normalKey (key : String) : String :=
  String.ofList ((Update.trim key.toList).map Char.toLower)

/-- `trust_publisher`. -/
def trustPublisher (f : TrustFile) (key name now : String) (save : SaveOutcome) :
    TrustFile × TrustReply :=
  let key := normalKey key
  match pubkeyOfHex key with
  | none => (f, .badRequest)
  | some _ => saveAnd f (f.load.trust key name now) save .trusted

/-- `revoke_publisher`. -/
def revokePublisher (f : TrustFile) (key : String) (save : SaveOutcome) : TrustFile × TrustReply :=
  match f.load.revoke key with
  | (_, false) => (f, .notFound)
  | (trust, true) => saveAnd f trust save .revoked

/-- A call of one of the handlers. -/
inductive TrustCall where
  | install (a : Artifact) (trustPublisher : Bool) (now : String) (save : SaveOutcome)
  | trust (key name now : String) (save : SaveOutcome)
  | revoke (key : String) (save : SaveOutcome)

namespace TrustCall

def exec (verifies : PublicKey → List UInt8 → Sig → Bool) (f : TrustFile) :
    TrustCall → TrustFile × TrustReply
  | .install a trustPublisher now save => installPkg verifies f a trustPublisher now save
  | .trust key name now save => PhReactor.trustPublisher f key name now save
  | .revoke key save => revokePublisher f key save

/-- The text that a call records or removes. -/
def spelling : TrustCall → String
  | .install a _ _ _ => a.publisherKey
  | .trust key _ _ _ => normalKey key
  | .revoke key _ => key

def saves : TrustCall → SaveOutcome
  | .install _ _ _ save => save
  | .trust _ _ _ save => save
  | .revoke _ save => save

/-- Does the call ask for trust, rather than withdraw it. -/
def grants : TrustCall → Bool
  | .install _ trustPublisher _ _ => trustPublisher
  | .trust .. => true
  | .revoke .. => false

/-- What a successful call decides: the key, and whether it is trusted from now on.  An install
    decides only if the operator says to trust the publisher. -/
def decided (verifies : PublicKey → List UInt8 → Sig → Bool) (f : TrustFile) (c : TrustCall) :
    List (PublicKey × Bool) :=
  match (c.exec verifies f).2 with
  | .trusted => if c.grants then (pubkeyOfHex c.spelling).toList.map (·, true) else []
  | .revoked => (pubkeyOfHex c.spelling).toList.map (·, false)
  | _ => []

end TrustCall

/-- The handlers one after the other; what they decide is put out. -/
def trustMachine (verifies : PublicKey → List UInt8 → Sig → Bool) :
    Lib.Machine TrustFile TrustCall (PublicKey × Bool) :=
  ⟨fun f c => ((c.exec verifies f).1, c.decided verifies f)⟩

/-! ## What a call changes -/

namespace TrustCall

variable (verifies : PublicKey → List UInt8 → Sig → Bool) (f : TrustFile) (c : TrustCall)

/-- Does the call trust a publisher that is trusted already.  Nothing is written then. -/
def again : TrustCall → Bool
  | .install a trustPublisher _ _ =>
    trustPublisher && (a.verify verifies).isOk && f.isTrusted a.publisherKey
  | _ => false

/-- Does the call get as far as writing the file. -/
def writes : TrustCall → Bool
  | .install a trustPublisher _ _ =>
    trustPublisher && (a.verify verifies).isOk && !f.isTrusted a.publisherKey
  | .trust key _ _ _ => (pubkeyOfHex (normalKey key)).isSome
  | .revoke key _ => f.isTrusted key

/-- Does the call succeed in what it decides. -/
def succeeds : Bool := c.again verifies f || (c.writes verifies f && c.saves = .ok)

/-- Does the call leave the file torn.  From then on nobody is trusted. -/
def tears : Bool := c.writes verifies f && c.saves = .torn

/-- What a call can do: trust again, write a store that differs in its own spelling alone, or
    decide nothing. -/
theorem exec_cases :
    (c.again verifies f = true ∧ c.writes verifies f = false ∧ c.grants = true ∧
      f.isTrusted c.spelling = true ∧ c.exec verifies f = (f, .trusted)) ∨
    (c.again verifies f = false ∧ c.writes verifies f = true ∧
      ∃ s, c.exec verifies f = saveAnd f s c.saves (if c.grants then .trusted else .revoked) ∧
        ∀ x, s.isTrusted x = if c.spelling = x then c.grants else f.isTrusted x) ∨
    (c.again verifies f = false ∧ c.writes verifies f = false ∧
      ∃ r, c.exec verifies f = (f, r) ∧ (r = .trusted → c.grants = false) ∧ r ≠ .revoked) := by
  cases c with
  | install a trustPublisher now save =>
    have hexec : (install a trustPublisher now save).exec verifies f =
      installPkg verifies f a trustPublisher now save := rfl
    have hagain : (install a trustPublisher now save).again verifies f =
      (trustPublisher && (a.verify verifies).isOk && f.isTrusted a.publisherKey) := rfl
    have hwrites : (install a trustPublisher now save).writes verifies f =
      (trustPublisher && (a.verify verifies).isOk && !f.isTrusted a.publisherKey) := rfl
    unfold installPkg at hexec
    rw [hagain, hwrites]
    cases hverify : a.verify verifies with
    | error e =>
      rw [hverify] at hexec
      rw [show (Except.error e : Except VerifyError PublicKey).isOk = false from rfl,
        Bool.and_false, Bool.false_and, Bool.false_and]
      exact Or.inr (Or.inr ⟨rfl, rfl, _, hexec, by simp, by simp⟩)
    | ok key =>
      rw [hverify] at hexec
      dsimp only at hexec
      rw [show (Except.ok key : Except VerifyError PublicKey).isOk = true from rfl, Bool.and_true]
      cases htrusted : f.isTrusted a.publisherKey with
      | true =>
        rw [show f.load.isTrusted a.publisherKey = true from htrusted] at hexec
        cases trustPublisher with
        | true => exact Or.inl ⟨rfl, rfl, rfl, htrusted, hexec⟩
        | false => exact Or.inr (Or.inr ⟨rfl, rfl, _, hexec, fun _ => rfl, by simp⟩)
      | false =>
        rw [show f.load.isTrusted a.publisherKey = false from htrusted] at hexec
        cases trustPublisher with
        | true =>
          exact Or.inr (Or.inl ⟨rfl, rfl, _, hexec, TrustStore.isTrusted_trust f.load _ _ _⟩)
        | false => exact Or.inr (Or.inr ⟨rfl, rfl, _, hexec, by simp, by simp⟩)
  | trust key name now save =>
    have hexec : (trust key name now save).exec verifies f =
      PhReactor.trustPublisher f key name now save := rfl
    have hwrites : (trust key name now save).writes verifies f =
      (pubkeyOfHex (normalKey key)).isSome := rfl
    unfold PhReactor.trustPublisher at hexec
    dsimp only at hexec
    rw [hwrites]
    cases hkey : pubkeyOfHex (normalKey key) with
    | none =>
      rw [hkey] at hexec
      exact Or.inr (Or.inr ⟨rfl, rfl, _, hexec, by simp, by simp⟩)
    | some K =>
      rw [hkey] at hexec
      exact Or.inr (Or.inl ⟨rfl, rfl, _, hexec, TrustStore.isTrusted_trust f.load _ _ _⟩)
  | revoke key save =>
    have hexec : (revoke key save).exec verifies f = revokePublisher f key save := rfl
    unfold revokePublisher at hexec
    have hwrites : (revoke key save).writes verifies f = (f.load.revoke key).2 := rfl
    have hchange := TrustStore.isTrusted_revoke f.load key
    rw [hwrites]
    rcases hrevoke : f.load.revoke key with ⟨left, removed⟩
    rw [hrevoke] at hexec hchange
    cases removed with
    | false => exact Or.inr (Or.inr ⟨rfl, rfl, _, hexec, by simp, by simp⟩)
    | true => exact Or.inr (Or.inl ⟨rfl, rfl, _, hexec, hchange⟩)

variable {f}

theorem isTrusted_saveAnd (s : TrustStore) (save : SaveOutcome) (r : TrustReply) (x : String) :
    (saveAnd f s save r).1.isTrusted x =
      if save = .ok then s.isTrusted x else f.isTrusted x && !decide (save = .torn) := by
  cases save with
  | ok => rfl
  | kept => exact (Bool.and_true _).symm
  | torn => exact (TrustStore.isTrusted_empty x).trans (Bool.and_false _).symm

variable (f)

/-- **Who is trusted after a call**: a success acts on its own spelling alone, and a torn file ends
    all trust. -/
theorem isTrusted_exec (x : String) :
    (c.exec verifies f).1.isTrusted x =
      if c.succeeds verifies f then (if c.spelling = x then c.grants else f.isTrusted x)
      else f.isTrusted x && !c.tears verifies f := by
  unfold succeeds tears
  rcases c.exec_cases verifies f with ⟨hagain, hwrites, hgrants, htrusted, hexec⟩ |
    ⟨hagain, hwrites, s, hexec, hs⟩ | ⟨hagain, hwrites, r, hexec, -, -⟩
  · rw [hexec, hagain, Bool.true_or, if_pos rfl, hgrants]
    split
    · next heq => exact heq ▸ htrusted
    · rfl
  · rw [hexec, hagain, hwrites, isTrusted_saveAnd, Bool.false_or, Bool.true_and, Bool.true_and,
      ← hs x]
    cases c.saves <;> rfl
  · rw [hexec, hagain, hwrites, Bool.false_and, Bool.false_or, if_neg Bool.false_ne_true,
      Bool.false_and, Bool.not_false, Bool.and_true]

variable {verifies f c} in
theorem not_tears (h : c.succeeds verifies f = true) : c.tears verifies f = false := by
  unfold succeeds at h
  unfold tears
  rcases c.exec_cases verifies f with ⟨-, hwrites, -⟩ | ⟨hagain, hwrites, -⟩ | ⟨hagain, hwrites, -⟩
  · rw [hwrites, Bool.false_and]
  · rw [hagain, hwrites, Bool.false_or, Bool.true_and, decide_eq_true_eq] at h
    rw [h]
    exact Bool.and_false _
  · rw [hwrites, Bool.false_and]

/-- A call decides exactly if it succeeds. -/
theorem decided_eq :
    c.decided verifies f =
      if c.succeeds verifies f then (pubkeyOfHex c.spelling).toList.map (·, c.grants) else [] := by
  unfold succeeds decided
  rcases c.exec_cases verifies f with ⟨hagain, -, hgrants, -, hexec⟩ |
    ⟨hagain, hwrites, s, hexec, -⟩ | ⟨hagain, hwrites, r, hexec, htrusted, hrevoked⟩
  · rw [hexec, hagain, Bool.true_or, if_pos rfl, hgrants]
    rfl
  · rw [hexec, hagain, hwrites, Bool.false_or, Bool.true_and]
    cases c.saves <;> cases c.grants <;> rfl
  · rw [hexec, hagain, hwrites, Bool.false_and, Bool.false_or, if_neg Bool.false_ne_true]
    cases r with
    | trusted => rw [htrusted rfl]; rfl
    | revoked => exact absurd rfl hrevoked
    | badRequest => rfl
    | conflict => rfl
    | notFound => rfl
    | saveFailed => rfl

end TrustCall

/-! ## Trust and the key -/

variable (verifies : PublicKey → List UInt8 → Sig → Bool)

/-- What the handlers have decided so far, in order. -/
def decisions (calls : List TrustCall) : List (PublicKey × Bool) :=
  ((trustMachine verifies).outputs .absent calls).flatten

/-- Does the trust in the text `x` follow the key `K`: it is trusted exactly when the last decision
    about `K` was to trust it. -/
def TrustFollows (x : String) (K : PublicKey) (past : List TrustCall) (f : TrustFile) : Prop :=
  f.isTrusted x = true ↔ Lib.lastOf Prod.fst K (decisions verifies past) = some (K, true)

/-- A call with care for the text `x` of the key `K`: a success about `K` in ANOTHER spelling finds
    `x` as it would leave it, and no file is torn while `x` is trusted. -/
def TrustCall.Careful (x : String) (K : PublicKey) (f : TrustFile) (c : TrustCall) : Prop :=
  (c.succeeds verifies f = true → pubkeyOfHex c.spelling = some K → c.spelling ≠ x →
    f.isTrusted x = c.grants) ∧
  (c.tears verifies f = true → f.isTrusted x = false)

theorem decisions_concat (past : List TrustCall) (c : TrustCall) :
    decisions verifies (past ++ [c]) =
      decisions verifies past ++ c.decided verifies ((trustMachine verifies).run .absent past) := by
  unfold decisions
  rw [Lib.Machine.outputs_concat, List.flatten_append, List.flatten_singleton]
  rfl

variable {verifies} {x : String} {K : PublicKey}

/-- **One call keeps the trust with the key exactly when it is careful.** -/
theorem TrustCall.follows_iff (hx : pubkeyOfHex x = some K) {past : List TrustCall}
    (c : TrustCall)
    (h : TrustFollows verifies x K past ((trustMachine verifies).run .absent past)) :
    TrustFollows verifies x K (past ++ [c])
        ((trustMachine verifies).step ((trustMachine verifies).run .absent past) c).1 ↔
      c.Careful verifies x K ((trustMachine verifies).run .absent past) := by
  generalize hf : (trustMachine verifies).run .absent past = f at h
  unfold TrustFollows at h ⊢
  rw [decisions_concat, hf, Lib.lastOf, Lib.last?_append]
  rw [show ((trustMachine verifies).step f c).1 = (c.exec verifies f).1 from rfl]
  rw [c.isTrusted_exec, c.decided_eq]
  unfold Careful
  cases hsucc : c.succeeds verifies f with
  | false =>
    -- nothing is decided: the trust must stay as it is
    rw [if_neg Bool.false_ne_true, if_neg Bool.false_ne_true, Lib.last?, Option.none_or, ← h]
    cases f.isTrusted x <;> cases c.tears verifies f <;> simp
  | true =>
    rw [if_pos rfl, if_pos rfl, c.not_tears hsucc]
    by_cases hK : pubkeyOfHex c.spelling = some K
    · have hlast : Lib.last? (fun d => d.1 == K)
          ((pubkeyOfHex c.spelling).toList.map (·, c.grants)) = some (K, c.grants) := by
        rw [hK]
        simp [Lib.last?]
      rw [hlast, Option.some_or]
      by_cases hs : c.spelling = x
      · rw [if_pos hs]
        simp [hs]
      · rw [if_neg hs]
        cases f.isTrusted x <;> cases c.grants <;> simp [hK, hs]
    · -- a decision about another key
      have hnone : Lib.last? (fun d => d.1 == K)
          ((pubkeyOfHex c.spelling).toList.map (·, c.grants)) = none := by
        refine Lib.last?_eq_none.mpr fun d hd => beq_eq_false_iff_ne.mpr ?_
        obtain ⟨K', hK', rfl⟩ := List.mem_map.mp hd
        rintro rfl
        exact hK (Option.mem_toList.mp hK')
      have hs : c.spelling ≠ x := by
        rintro rfl
        exact hK hx
      rw [hnone, Option.none_or, if_neg hs, ← h]
      simp [hK]

/-- **The trust in an artifact follows the key that it verifies under**, after every part of a run
    of the handlers, exactly when every call of the run is careful. -/
theorem trust_follows_key_iff (verifies : PublicKey → List UInt8 → Sig → Bool) (a : Artifact)
    {K : PublicKey} (ha : a.verify verifies = .ok K) (calls : List TrustCall) :
    (∀ past rest, calls = past ++ rest →
        (((trustMachine verifies).run .absent past).isTrusted a.publisherKey = true ↔
          Lib.lastOf Prod.fst K (decisions verifies past) = some (K, true))) ↔
      ∀ past c rest, calls = past ++ c :: rest →
        c.Careful verifies a.publisherKey K ((trustMachine verifies).run .absent past) := by
  refine Lib.Machine.cuts_iff (trustMachine verifies)
    (I := TrustFollows verifies a.publisherKey K) ?_ (fun past c h => ?_) calls
  · have hnobody : TrustFile.absent.isTrusted a.publisherKey = false :=
      TrustStore.isTrusted_empty _
    unfold TrustFollows
    rw [hnobody]
    exact iff_of_false Bool.false_ne_true fun h => by cases h
  · exact TrustCall.follows_iff (pubkeyOfHex_of_verify ha) c h

end

/-! ## The sample: one publisher, two spellings -/

namespace Sample

attribute [local instance] primitives

/-- Signatures of the sample. -/
def releaseSigned : PublicKey → List UInt8 → Sig → Bool := fun key bytes sig => sig == tag key bytes

/-- The key 10, its last digit in that spelling. -/
def publisherHex (digit : Char) : String := String.ofList (List.replicate 63 '0' ++ [digit])

/-- What that publisher signs, under that spelling of its key. -/
def published (digit : Char) : Artifact :=
  ⟨publisherHex digit, "Powerhouse", [123, 125], hexEncode (beBytes 64 (tag 10 [123, 125]).val)⟩

/-- Both spellings verify under the one key. -/
theorem verify_published :
    (published 'a').verify releaseSigned = .ok 10 ∧
      (published 'A').verify releaseSigned = .ok 10 := by
  decide +kernel

/-- The sample publisher is trusted under one spelling, and revoked under another. -/
def trustThenRevoke (pinned revoked : Char) : List TrustCall :=
  [.install (published pinned) true "now" .ok, .revoke (publisherHex revoked) .ok]

end Sample

attribute [local instance] Sample.primitives

/-- Trusting it in an install and revoking it in the same spelling: both calls are careful. -/
theorem trust_follows_key_revoked :
    (Sample.published 'a').verify Sample.releaseSigned = .ok 10 ∧
      (∀ past rest, Sample.trustThenRevoke 'a' 'a' = past ++ rest →
        (((trustMachine Sample.releaseSigned).run .absent past).isTrusted
            (Sample.publisherHex 'a') = true ↔
          Lib.lastOf Prod.fst 10 (decisions Sample.releaseSigned past) = some (10, true))) := by
  refine ⟨Sample.verify_published.1,
    (trust_follows_key_iff Sample.releaseSigned (Sample.published 'a')
    Sample.verify_published.1 (Sample.trustThenRevoke 'a' 'a')).mpr ?_⟩
  refine Lib.forall_cuts_cons.mpr ⟨?_, Lib.forall_cuts_cons.mpr ⟨?_, Lib.forall_cuts_nil⟩⟩
  · unfold TrustCall.Careful
    decide +kernel
  · unfold TrustCall.Careful
    decide +kernel

/-- It was installed under a capital spelling, and the operator trusts the lower-case one too. -/
def Sample.twicePinned : List TrustCall :=
  [.install (Sample.published 'A') true "now" .ok,
    .trust (Sample.publisherHex 'A') "Powerhouse" "later" .ok,
    .revoke (Sample.publisherHex 'a') .ok]

/-- **What a revoked key signed is still trusted**, under the spelling of the install. -/
theorem revoked_key_still_trusted :
    (Sample.published 'A').verify Sample.releaseSigned = .ok 10 ∧
      Lib.lastOf Prod.fst 10 (decisions Sample.releaseSigned Sample.twicePinned) =
        some (10, false) ∧
      ((trustMachine Sample.releaseSigned).run .absent Sample.twicePinned).isTrusted
        (Sample.published 'A').publisherKey = true := by
  decide +kernel

end PhReactor
