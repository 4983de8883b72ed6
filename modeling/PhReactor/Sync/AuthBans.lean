/-
  Automatic bans (`src/p2p/mod.rs`, `record_auth_failure`).

  A peer that fails authentication `authBanAfter` times within `authBanWindow` is to be banned.  The
  engine keeps a count and the time of the last attempt for each peer, and starts over when the last
  attempt is longer ago than the window.

  1. What it keeps is the length of the peer's chain of attempts since its last ban
     (`tally_sinceBan`), whatever other peers do in between; so it bans at the end of a chain
     (`bans_iff`).

  2. A chain of three may creep: each attempt is within the window of the one before, and the first
     is out of it.  Then the peer is banned for attempts that are spread wider (`creeping_peer`).

  3. That is the only difference: the bans follow the window exactly as long as no attempt creeps
     (`bans_follow_window_iff`).
-/
import PhReactor.Lib.Bursts
import PhReactor.Lib.Machine
import PhReactor.Sync.ReadGate

set_option linter.unusedSectionVars false

namespace PhReactor

section

variable [Primitives]

namespace Engine

/-! ## Attempts -/

/-- Is the peer banned at this attempt. -/
def bans (e : Engine) (x : Env × PeerId) : Bool := (recordAuthFailure x.1 e x.2).2

/-- Failed attempts, one after the other: the peer, and the clock among what is read from
    outside. -/
def attempts : Lib.Machine Engine (Env × PeerId) Bool :=
  ⟨fun e x => ((recordAuthFailure x.1 e x.2).1.1, [bans e x])⟩

/-- The times of `peer`'s attempts since its last ban, newest first, after one more attempt. -/
def noteAttempt (peer : PeerId) (e : Engine) (times : List ℕ) (x : Env × PeerId) : List ℕ :=
  if x.2 = peer then if bans e x then [] else x.1.now :: times else times

/-- The times of `peer`'s attempts since the engine last banned it. -/
def sinceBan (e : Engine) (peer : PeerId) (past : List (Env × PeerId)) : List ℕ :=
  ((attempts.observed (noteAttempt peer)).run (e, []) past).2

/-- The times of `peer`'s attempts since the last one that completed a burst. -/
def sinceBurst (peer : PeerId) (past : List (Env × PeerId)) : List ℕ :=
  past.foldl (fun times x =>
    if x.2 = peer then Lib.sinceBurst authBanWindow authBanAfter times x.1.now else times) []

/-- What the engine keeps of them: the length of the chain, and the last time. -/
def tally : List ℕ → Option (ℕ × ℕ)
  | [] => none
  | t :: past => some (Lib.chain authBanWindow (t :: past), t)

variable {e : Engine} {env : Env} {peer : PeerId} {times : List ℕ} {x : Env × PeerId}
  {past : List (Env × PeerId)}

/-! ## One attempt -/

theorem failureCount_of_tally (h : e.authFailures[peer]? = tally times) :
    failureCount env e peer = Lib.chain authBanWindow (env.now :: times) := by
  unfold failureCount
  rw [h]
  cases times with
  | nil =>
    show (if authBanWindow < env.now - env.now then 0 else 0) + 1 = 1
    rw [ite_self]
  | cons t past =>
    show (if authBanWindow < env.now - t then 0 else Lib.chain authBanWindow (t :: past)) + 1 =
      if authBanWindow < env.now - t then 1 else Lib.chain authBanWindow (t :: past) + 1
    split <;> rfl

theorem bans_eq : bans e x = decide (authBanAfter ≤ failureCount x.1 e x.2) := by
  unfold bans recordAuthFailure
  dsimp only
  split
  · next h => exact (decide_eq_true h).symm
  · next h => exact (decide_eq_false h).symm

/-- The record of one peer is touched by its own attempts only. -/
theorem authFailures_attempt :
    (attempts.step e x).1.authFailures[peer]? =
      if x.2 = peer then
        if bans e x then none else some (failureCount x.1 e x.2, x.1.now)
      else e.authFailures[peer]? := by
  rw [bans_eq]
  show (recordAuthFailure x.1 e x.2).1.1.authFailures[peer]? = _
  unfold recordAuthFailure
  dsimp only
  split
  · next h =>
    rw [decide_eq_true h, if_pos rfl]
    show (e.authFailures.erase x.2)[peer]? = _
    rw [Std.ExtTreeMap.getElem?_erase]
    simp only [Std.compare_eq_iff_eq]
  · next h =>
    rw [decide_eq_false h, if_neg Bool.false_ne_true]
    show (e.authFailures.insert x.2 (failureCount x.1 e x.2, x.1.now))[peer]? = _
    rw [Std.ExtTreeMap.getElem?_insert]
    simp only [Std.compare_eq_iff_eq]

/-! ## Runs of attempts -/

theorem sinceBan_concat : sinceBan e peer (past ++ [x]) =
    noteAttempt peer (attempts.run e past) (sinceBan e peer past) x := by
  unfold sinceBan
  rw [Lib.Machine.run_concat]
  show noteAttempt peer ((attempts.observed (noteAttempt peer)).run (e, []) past).1 _ x = _
  rw [Lib.Machine.run_observed]

theorem sinceBurst_concat : sinceBurst peer (past ++ [x]) =
    if x.2 = peer then
      Lib.sinceBurst authBanWindow authBanAfter (sinceBurst peer past) x.1.now
    else sinceBurst peer past := by
  simp [sinceBurst]

/-- **Run lemma**: the engine keeps the chain of each peer's attempts since its last ban. -/
theorem tally_sinceBan (hfresh : e.authFailures = ∅) (peer : PeerId)
    (past : List (Env × PeerId)) :
    (attempts.run e past).authFailures[peer]? = tally (sinceBan e peer past) := by
  induction past using List.reverseRecOn with
  | nil =>
    show e.authFailures[peer]? = none
    rw [hfresh]
    exact Std.ExtTreeMap.getElem?_empty
  | append_singleton past x ih =>
    rw [Lib.Machine.run_concat, authFailures_attempt, sinceBan_concat]
    unfold noteAttempt
    by_cases hpeer : x.2 = peer
    · subst hpeer
      rw [if_pos rfl, if_pos rfl, failureCount_of_tally ih]
      split <;> rfl
    · rw [if_neg hpeer, if_neg hpeer]
      exact ih

/-- **The engine bans at the end of a chain.** -/
theorem bans_iff (hfresh : e.authFailures = ∅) (past : List (Env × PeerId)) (x : Env × PeerId) :
    bans (attempts.run e past) x = true ↔ authBanAfter ≤
      Lib.chain authBanWindow (x.1.now :: sinceBan e x.2 past) := by
  rw [bans_eq, decide_eq_true_iff, failureCount_of_tally (tally_sinceBan hfresh x.2 past)]

/-- An attempt that does not creep leaves the two records in step. -/
theorem inStep_concat (hfresh : e.authFailures = ∅)
    (hsame : sinceBan e peer past = sinceBurst peer past)
    (hcreep : x.2 = peer →
      ¬ Lib.Creep authBanWindow authBanAfter (x.1.now :: sinceBurst peer past)) :
    sinceBan e peer (past ++ [x]) = sinceBurst peer (past ++ [x]) := by
  rw [sinceBan_concat, sinceBurst_concat]
  unfold noteAttempt
  by_cases hpeer : x.2 = peer
  · subst hpeer
    rw [if_pos rfl, if_pos rfl, hsame]
    have hbans := bans_iff hfresh past x
    rw [hsame, Lib.chain_iff_burst.mpr (hcreep rfl)] at hbans
    unfold Lib.sinceBurst
    simp only [hbans]
  · rw [if_neg hpeer, if_neg hpeer, hsame]

/-- So they stay in step as long as no attempt creeps. -/
theorem inStep_of_steady (hfresh : e.authFailures = ∅) {ins : List (Env × PeerId)}
    (hsteady : ∀ past x rest, ins = past ++ x :: rest → x.2 = peer →
      sinceBan e peer past = sinceBurst peer past →
      ¬ Lib.Creep authBanWindow authBanAfter (x.1.now :: sinceBurst peer past)) :
    ∀ past rest, ins = past ++ rest → sinceBan e peer past = sinceBurst peer past := by
  intro past
  induction past using List.reverseRecOn with
  | nil => exact fun _ _ => rfl
  | append_singleton past y ih =>
    intro rest hins
    have hcut : ins = past ++ y :: rest := by
      rw [hins, List.append_assoc]
      rfl
    have hpast := ih _ hcut
    exact inStep_concat hfresh hpast fun hpeer => hsteady past y rest hcut hpeer hpast

/-- **When the bans follow the window.**  Over any sequence of failed attempts of any peers: at each
    attempt of `peer` the engine bans it exactly when that attempt completes a burst with those
    since its last ban, if and only if none of its attempts creeps. -/
theorem bans_follow_window_iff (hfresh : e.authFailures = ∅) (peer : PeerId)
    (ins : List (Env × PeerId)) :
    (∀ past x rest, ins = past ++ x :: rest → x.2 = peer →
      (bans (attempts.run e past) x = true ↔
        Lib.Burst authBanWindow authBanAfter (x.1.now :: sinceBan e peer past))) ↔
      ∀ past x rest, ins = past ++ x :: rest → x.2 = peer →
        ¬ Lib.Creep authBanWindow authBanAfter (x.1.now :: sinceBurst peer past) := by
  -- at one attempt, while the two records are in step
  have hone : ∀ past x, x.2 = peer → sinceBan e peer past = sinceBurst peer past →
      ((bans (attempts.run e past) x = true ↔
        Lib.Burst authBanWindow authBanAfter (x.1.now :: sinceBan e peer past)) ↔
        ¬ Lib.Creep authBanWindow authBanAfter (x.1.now :: sinceBurst peer past)) := by
    rintro past x rfl hsame
    rw [bans_iff hfresh, hsame, Lib.chain_iff_burst]
  constructor
  · intro hfollow
    have hsame : ∀ past rest, ins = past ++ rest → sinceBan e peer past = sinceBurst peer past :=
      inStep_of_steady hfresh fun past x rest hins hpeer hsame =>
        (hone past x hpeer hsame).mp (hfollow past x rest hins hpeer)
    intro past x rest hins hpeer
    exact (hone past x hpeer (hsame past _ hins)).mp (hfollow past x rest hins hpeer)
  · intro hsteady
    have hsame : ∀ past rest, ins = past ++ rest → sinceBan e peer past = sinceBurst peer past :=
      inStep_of_steady hfresh fun past x rest hins hpeer _ => hsteady past x rest hins hpeer
    intro past x rest hins hpeer
    exact (hone past x hpeer (hsame past _ hins)).mpr (hsteady past x rest hins hpeer)

end Engine

end

section

open Sample Engine

attribute [local instance] Sample.primitives

/-- Nobody is connected; it is `minute` minutes past. -/
def atMinute (minute : ℕ) : Env := { calmEnv with now := minute * 60 * 1000000000 }

/-- Three attempts of one peer. -/
def threeAttempts (first second third : ℕ) : List (Env × PeerId) :=
  [(atMinute first, bob.name), (atMinute second, bob.name), (atMinute third, bob.name)]

/-- No attempt creeps when the three are within nine minutes. -/
theorem nine_minutes_steady : ∀ past x rest, threeAttempts 0 4 9 = past ++ x :: rest →
    x.2 = bob.name →
      ¬ Lib.Creep authBanWindow authBanAfter (x.1.now :: sinceBurst bob.name past) := by
  unfold threeAttempts
  rw [Lib.forall_cuts_cons, Lib.forall_cuts_cons, Lib.forall_cuts_cons]
  refine ⟨fun _ => ?_, fun _ => ?_, fun _ => ?_, Lib.forall_cuts_nil⟩ <;> decide +kernel

theorem threeAttempts_ban :
    bans (attempts.run aliceEngine ((threeAttempts 0 9 18).take 2)) (atMinute 18, bob.name) = true ∧
      sinceBan aliceEngine bob.name ((threeAttempts 0 9 18).take 2) =
        [9 * 60 * 1000000000, 0] := by
  decide +kernel

/-- The third attempt within nine minutes completes a burst, and is answered with a ban. -/
theorem bans_follow_window_burst :
    bans (attempts.run aliceEngine ((threeAttempts 0 4 9).take 2)) (atMinute 9, bob.name) = true ↔
      Lib.Burst authBanWindow authBanAfter ((atMinute 9).now ::
        sinceBan aliceEngine bob.name ((threeAttempts 0 4 9).take 2)) :=
  (bans_follow_window_iff rfl bob.name (threeAttempts 0 4 9)).mpr nine_minutes_steady _ _ [] rfl rfl

/-- **A peer is banned for attempts at minutes 0, 9 and 18**: no ten minutes have all three. -/
theorem creeping_peer :
    ¬ ∀ (e : Engine) (peer : PeerId) (ins : List (Env × PeerId)), e.authFailures = ∅ →
      ins.Pairwise (fun x y => x.1.now ≤ y.1.now) →
      ∀ past x rest, ins = past ++ x :: rest → x.2 = peer →
        (bans (attempts.run e past) x = true ↔
          Lib.Burst authBanWindow authBanAfter (x.1.now :: sinceBan e peer past)) := by
  intro h
  have hthird := h aliceEngine bob.name (threeAttempts 0 9 18) rfl
    (by simp [threeAttempts, atMinute]) ((threeAttempts 0 9 18).take 2) (atMinute 18, bob.name) []
    rfl rfl
  have hburst := hthird.mp threeAttempts_ban.1
  rw [threeAttempts_ban.2] at hburst
  exact absurd hburst (by decide +kernel)

end

end PhReactor
