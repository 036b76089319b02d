import Mathlib.Data.Int.Notation
import Mathlib.Data.List.Basic
import Mathlib.Data.Nat.Notation
import Mathlib.Data.Rat.Floor
import Mathlib.Algebra.Order.Ring.Int
import Mathlib.Tactic.Linarith

/-!
# Retry.Serialization — the retry loop

`src/retry.ts`. The callback is a result for each call, whatever the database and
everybody else do in between; `pgLike` is what `getPgErrorCode` sees of a thrown value
(`none` for one that is no object). `withSerializationRetry_spec` says what the loop
does for every callback: which call ends it, what it told `onRetry`, how long it slept.
-/

namespace Marketplace.Retry

def retryablePgCodes : List String := ["40001", "40P01"]

structure PgLikeError where
  code : Option String
  /-- `driverError`, if there is one, with its own `code`. -/
  driverError : Option (Option String)

structure RetryOptions where
  maxAttempts : Option ℤ
  baseDelayMs : Option ℤ

namespace RetryOptions

def attempts (options : RetryOptions) : ℤ := options.maxAttempts.getD 8

def delay (options : RetryOptions) : ℤ := options.baseDelayMs.getD 20

/-- `Math.floor(Math.random() * baseDelayMs)`. -/
def jitter (options : RetryOptions) (random : ℚ) : ℤ := ⌊random * options.delay⌋

end RetryOptions

/-- What `Math.random()` gives. -/
def Random (random : ℚ) : Prop := 0 ≤ random ∧ random < 1

/-- The pause after an attempt: within `baseDelayMs` above so many times `baseDelayMs`. With a
base of 0 there is none, and with a negative one (which `setTimeout` takes for no delay) the
jitter goes down instead of up. -/
structure Pause (base : ℤ) (attempt : ℕ) (ms : ℤ) : Prop where
  up : 0 < base → base * attempt ≤ ms ∧ ms < base * (attempt + 1)
  none : base = 0 → ms = 0
  down : base < 0 → base * (attempt + 1) ≤ ms ∧ ms ≤ base * attempt

structure RetryInfo (ε : Type) where
  attempt : ℕ
  code : String
  error : ε
deriving DecidableEq

/-- What a call of `withSerializationRetry` did: its result, the calls of the callback, the
calls of `onRetry` and the delays. -/
structure Retried (ε τ : Type) where
  result : Except ε τ
  calls : ℕ
  retries : List (RetryInfo ε)
  sleeps : List ℤ

/-- Whatever `baseDelayMs` is, the pause is one of the pauses it allows. -/
theorem Random.pause {options : RetryOptions} {attempt : ℕ} {random : ℚ} (h : Random random) :
    Pause options.delay attempt (options.delay * attempt + options.jitter random) := by
  have hle : (options.jitter random : ℚ) ≤ random * options.delay := Int.floor_le _
  have hlt : random * options.delay < options.jitter random + 1 := Int.lt_floor_add_one _
  refine ⟨fun hpos => ?_, fun hzero => ?_, fun hneg => ?_⟩
  · have hbase : (0 : ℚ) < options.delay := by exact_mod_cast hpos
    have hlow : 0 ≤ options.jitter random := Int.floor_nonneg.mpr (mul_nonneg h.1 hbase.le)
    have hhigh : (options.jitter random : ℚ) < options.delay :=
      hle.trans_lt (mul_lt_of_lt_one_left hbase h.2)
    have hhigh' : options.jitter random < options.delay := by exact_mod_cast hhigh
    rw [mul_add]
    omega
  · simp [RetryOptions.jitter, hzero]
  · -- the product of `Math.random()` and a negative base is above that base
    have hbase : (options.delay : ℚ) < 0 := by exact_mod_cast hneg
    have hhigh : (options.jitter random : ℚ) ≤ 0 :=
      hle.trans (mul_nonpos_of_nonneg_of_nonpos h.1 hbase.le)
    have hlow : (options.delay : ℚ) < options.jitter random + 1 :=
      (lt_mul_of_lt_one_left hbase h.2).trans hlt
    have hhigh' : options.jitter random ≤ 0 := by exact_mod_cast hhigh
    have hlow' : options.delay < options.jitter random + 1 := by exact_mod_cast hlow
    rw [mul_add]
    omega

section

variable {ε τ : Type} (pgLike : ε → Option PgLikeError)

/-- `err.code ?? err.driverError?.code`. -/
def getPgErrorCode (error : ε) : Option String :=
  (pgLike error).bind fun err => err.code.or (err.driverError.bind id)

def isRetryableSerializationError (error : ε) : Bool :=
  match getPgErrorCode pgLike error with
  | none => false
  | some code => retryablePgCodes.contains code

/-- The catch block: the code it retries for, or `none` if it throws. -/
def retryCode (options : RetryOptions) (attempt : ℕ) (error : ε) : Option String :=
  match getPgErrorCode pgLike error with
  | none => none
  | some code =>
      if code = "" ∨ ¬ retryablePgCodes.contains code ∨ options.attempts ≤ attempt then none
      else some code

variable {pgLike} {options : RetryOptions} {attempt : ℕ} {error : ε} {code : String}

/-- An error is retried exactly if it carries a code of the list and attempts are left. -/
theorem retryCode_some_iff : retryCode pgLike options attempt error = some code ↔
    getPgErrorCode pgLike error = some code ∧ code ∈ retryablePgCodes ∧
      attempt < options.attempts := by
  unfold retryCode
  split
  · next hnone => simp [hnone]
  · next code' hcode =>
      rw [hcode]
      split
      · next hcond =>
          constructor
          · intro h
            cases h
          · rintro ⟨heq, hmem, hlt⟩
            obtain rfl := Option.some.inj heq
            rcases hcond with rfl | hcond | hcond
            · revert hmem
              decide
            · exact absurd (List.contains_iff_mem.mpr hmem) (by simpa using hcond)
            · omega
      · next hcond =>
          push Not at hcond
          constructor
          · intro h
            obtain rfl := Option.some.inj h
            exact ⟨rfl, List.contains_iff_mem.mp hcond.2.1, hcond.2.2⟩
          · rintro ⟨heq, -, -⟩
            exact heq

/-- An error that could be retried is thrown only after the last attempt. -/
theorem retryCode_none (hretry : isRetryableSerializationError pgLike error = true)
    (h : retryCode pgLike options attempt error = none) : options.attempts ≤ attempt := by
  unfold isRetryableSerializationError at hretry
  split at hretry
  · cases hretry
  · next code hcode =>
      by_contra hlt
      have hsome : retryCode pgLike options attempt error = some code := by
        rw [retryCode_some_iff]
        exact ⟨hcode, List.contains_iff_mem.mp hretry, by omega⟩
      rw [hsome] at h
      cases h

variable (pgLike options) (fn : ℕ → Except ε τ) (random : ℕ → ℚ)

/-- The loop, from the attempt on whose number it has just counted. `random` is what
`Math.random()` gives after each failed attempt. -/
def retryFrom (attempt : ℕ) : Retried ε τ :=
  match fn attempt with
  | .ok value => ⟨.ok value, attempt, [], []⟩
  | .error error =>
      match h : retryCode pgLike options attempt error with
      | none => ⟨.error error, attempt, [], []⟩
      | some code =>
          have : attempt < options.attempts := (retryCode_some_iff.mp h).2.2
          let rest := retryFrom (attempt + 1)
          { rest with
            retries := ⟨attempt, code, error⟩ :: rest.retries
            sleeps := (options.delay * attempt + options.jitter (random attempt)) :: rest.sleeps }
termination_by (options.attempts - attempt).toNat
decreasing_by omega

def withSerializationRetry : Retried ε τ := retryFrom pgLike options fn random 1

variable {pgLike options fn random}

/-! ## What ends the loop -/

/-- An attempt that succeeds, or fails in a way that is not retried, is the last one. -/
theorem retryFrom_stop (h : ∀ error code, fn attempt = .error error →
      retryCode pgLike options attempt error ≠ some code) :
    retryFrom pgLike options fn random attempt = ⟨fn attempt, attempt, [], []⟩ := by
  rw [retryFrom]
  split
  · next value hok => rw [hok]
  · next error herror =>
      split
      · next hnone => rw [herror]
      · next code hsome => exact absurd hsome (h error code herror)

/-- An attempt that fails with a code that is retried is reported, waited after, and followed by
the next one. -/
theorem retryFrom_retry (herror : fn attempt = .error error)
    (hcode : retryCode pgLike options attempt error = some code) :
    retryFrom pgLike options fn random attempt =
      { retryFrom pgLike options fn random (attempt + 1) with
        retries := ⟨attempt, code, error⟩ ::
          (retryFrom pgLike options fn random (attempt + 1)).retries
        sleeps := (options.delay * attempt + options.jitter (random attempt)) ::
          (retryFrom pgLike options fn random (attempt + 1)).sleeps } := by
  rw [retryFrom]
  split
  · next value hok =>
      rw [herror] at hok
      cases hok
  · next error' herror' =>
      rw [herror] at herror'
      obtain rfl := Except.error.inj herror'
      split
      · next hnone =>
          rw [hcode] at hnone
          cases hnone
      · next code' hsome =>
          rw [hcode] at hsome
          obtain rfl := Option.some.inj hsome
          rfl

/-- What `k` attempts after the first one the loop reported and slept, after a failure it
retried. -/
def Reported (pgLike : ε → Option PgLikeError) (options : RetryOptions) (fn : ℕ → Except ε τ)
    (attempt k : ℕ) (r : Retried ε τ) : Prop :=
  ∃ info ms, r.retries[k]? = some info ∧ r.sleeps[k]? = some ms ∧
    info.attempt = attempt + k ∧ fn (attempt + k) = .error info.error ∧
    getPgErrorCode pgLike info.error = some info.code ∧ info.code ∈ retryablePgCodes ∧
    Pause options.delay info.attempt ms

/-- What the loop does from `attempt` on. -/
structure RetriesFrom (pgLike : ε → Option PgLikeError) (options : RetryOptions)
    (fn : ℕ → Except ε τ) (attempt : ℕ) (r : Retried ε τ) : Prop where
  result : r.result = fn r.calls
  first : attempt ≤ r.calls
  bound : (r.calls : ℤ) ≤ max (attempt : ℤ) options.attempts
  gaveUp : ∀ error, r.result = .error error →
    isRetryableSerializationError pgLike error = true → options.attempts ≤ r.calls
  reports : attempt + r.retries.length = r.calls
  delays : r.sleeps.length = r.retries.length
  reported : ∀ k, attempt + k < r.calls → Reported pgLike options fn attempt k r

/-- From any attempt on, the loop does as `RetriesFrom` says. Induction along the loop itself, one
case an outcome of the attempt. -/
theorem retryFrom_spec (hrandom : ∀ n, Random (random n)) (attempt : ℕ) :
    RetriesFrom pgLike options fn attempt (retryFrom pgLike options fn random attempt) := by
  induction attempt using retryFrom.induct pgLike options fn random with
  | case1 attempt value hok =>
      rw [retryFrom_stop (by simp [hok])]
      refine ⟨rfl, le_refl _, le_max_left _ _, ?_, rfl, rfl, ?_⟩
      · intro error herror
        rw [hok] at herror
        cases herror
      · intro k hk
        dsimp only at hk
        omega
  | case2 attempt error herror hnone =>
      rw [retryFrom_stop (by
        intro error' code' herror'
        rw [herror] at herror'
        obtain rfl := Except.error.inj herror'
        rw [hnone]
        simp)]
      refine ⟨rfl, le_refl _, le_max_left _ _, ?_, rfl, rfl, ?_⟩
      · intro error' herror' hretry
        rw [herror] at herror'
        obtain rfl := Except.error.inj herror'
        exact retryCode_none hretry hnone
      · intro k hk
        dsimp only at hk
        omega
  -- retried: the report and the pause of this attempt stand in front of those of the later ones
  | case3 attempt error herror code hcode hlt ih =>
      have hspec := retryCode_some_iff.mp hcode
      rw [retryFrom_retry herror hcode]
      refine ⟨ih.result, by have := ih.first; dsimp only; omega, ?_, ih.gaveUp, ?_, ?_, ?_⟩
      · have hbound := ih.bound
        push_cast at hbound
        dsimp only
        omega
      · have hreports := ih.reports
        dsimp only
        rw [List.length_cons]
        omega
      · simp only [List.length_cons, ih.delays]
      · intro k hk
        cases k with
        | zero =>
            -- the attempt that has just failed
            exact ⟨_, _, rfl, rfl, rfl, herror, hspec.1, hspec.2.1, (hrandom attempt).pause⟩
        | succ k =>
            obtain ⟨info, ms, hinfo, hms, hattempt, hfailed, hrest⟩ :=
              ih.reported k (by dsimp only at hk; omega)
            have hshift : attempt + 1 + k = attempt + (k + 1) := by omega
            rw [hshift] at hattempt hfailed
            exact ⟨info, ms, by simpa using hinfo, by simpa using hms, hattempt, hfailed, hrest⟩

/-! ## The loop by its failures -/

/-- A callback that fails with `errors`, one after the other, and then ends with `last`. -/
def failing (errors : List ε) (last : Except ε τ) (attempt : ℕ) : Except ε τ :=
  match errors[attempt - 1]? with
  | some error => .error error
  | none => last

/-- Every one of these failures is retried, the first of them in attempt 1. -/
def AllRetried (pgLike : ε → Option PgLikeError) (options : RetryOptions) (errors : List ε) :
    Prop :=
  ∀ k error, errors[k]? = some error → ∃ code, retryCode pgLike options (k + 1) error = some code

/-- The catch block, and `return`: what ends the loop. -/
def Final (pgLike : ε → Option PgLikeError) (options : RetryOptions) (attempt : ℕ)
    (last : Except ε τ) : Prop :=
  ∀ error, last = .error error → retryCode pgLike options attempt error = none

variable {errors : List ε} {last : Except ε τ}

/-- One more error that is retried, at the attempt whose number it gets. -/
theorem AllRetried.append (h : AllRetried pgLike options errors)
    (hcode : retryCode pgLike options (errors.length + 1) error = some code) :
    AllRetried pgLike options (errors ++ [error]) := by
  intro k error' hk
  rcases Nat.lt_trichotomy k errors.length with hlt | rfl | hgt
  · rw [List.getElem?_append_left hlt] at hk
    exact h k error' hk
  · rw [List.getElem?_concat_length] at hk
    obtain rfl := Option.some.inj hk
    exact ⟨code, hcode⟩
  · rw [List.getElem?_eq_none (by rw [List.length_append, List.length_singleton]; omega)] at hk
    cases hk

/-- A callback that fails with retried errors and then ends is called once more than it failed,
and its last answer is the result. -/
theorem retryFrom_failing (hall : AllRetried pgLike options errors)
    (hfinal : Final pgLike options (errors.length + 1) last) {k : ℕ} (hk : k ≤ errors.length) :
    (retryFrom pgLike options (failing errors last) random (k + 1)).result = last ∧
      (retryFrom pgLike options (failing errors last) random (k + 1)).calls =
        errors.length + 1 := by
  -- from the last attempt back to the first
  induction hn : errors.length - k generalizing k with
  | zero =>
      have hlast : failing errors last (k + 1) = last := by
        simp only [failing, Nat.add_sub_cancel]
        rw [List.getElem?_eq_none (by omega)]
      have hstop : k + 1 = errors.length + 1 := by omega
      rw [retryFrom_stop, hlast]
      · exact ⟨rfl, hstop⟩
      · intro error code herror
        rw [hlast] at herror
        rw [hstop, hfinal error herror]
        simp
  | succ n ih =>
      have hlt : k < errors.length := by omega
      obtain ⟨code, hcode⟩ := hall k errors[k] (List.getElem?_eq_getElem hlt)
      have herror : failing errors last (k + 1) = .error errors[k] := by
        simp only [failing, Nat.add_sub_cancel]
        rw [List.getElem?_eq_getElem hlt]
      rw [retryFrom_retry herror hcode]
      exact ih (by omega) (by omega)

/-- A loop that failed with `errors`, all of them retried, and then ended with `last`. -/
theorem withSerializationRetry_failing (hall : AllRetried pgLike options errors)
    (hfinal : Final pgLike options (errors.length + 1) last) :
    (withSerializationRetry pgLike options (failing errors last) random).result = last ∧
      (withSerializationRetry pgLike options (failing errors last) random).calls =
        errors.length + 1 :=
  retryFrom_failing hall hfinal (Nat.zero_le _)

/-- The whole function: it ends with the result of the last attempt, after at most `maxAttempts`
of them (one, if that is less than one); it throws a serialization failure or a deadlock only
if that attempt was the last one it may make; and each attempt before it failed so, was reported
to `onRetry` with its number and its code, and was followed by a pause between `n` and `n + 1`
times `baseDelayMs`. -/
theorem withSerializationRetry_spec (hrandom : ∀ n, Random (random n)) :
    RetriesFrom pgLike options fn 1 (withSerializationRetry pgLike options fn random) :=
  retryFrom_spec hrandom 1

end

/-- A deadlock and a connection that is lost: the second one is thrown. -/
theorem withSerializationRetry_spec_lost :
    RetriesFrom some ⟨none, none⟩
      (failing [⟨some "40P01", none⟩] (.error ⟨some "08006", none⟩ : Except PgLikeError Unit)) 1
      (withSerializationRetry some ⟨none, none⟩
        (failing [⟨some "40P01", none⟩] (.error ⟨some "08006", none⟩)) fun _ => 19 / 20) :=
  withSerializationRetry_spec fun _ => by
    constructor <;> norm_num

end Marketplace.Retry
