import Marketplace.Core.Procs
import Marketplace.Core.Snapshot
import Marketplace.Orders.Requests
import Marketplace.Retry.Serialization

/-!
# Retry.Debit — read-modify-write under REPEATABLE READ, retried

`debitOnce` of `src/demo-retry.ts`, any number of calls at once and statement by statement:
BEGIN, the SELECT that takes the snapshot, the UPDATE with the value computed from it,
COMMIT. The callback runs inside `withSerializationRetry`, so a failed attempt is followed
by another one if the catch block says so (`caught`).

* every statement may fail with any error, and a COMMIT that took effect may be reported as
  failed (`lost`), though never with a code that is retried: that code says the transaction
  was rolled back;
* the failures so far are in the program point, so `attempt` is one more than their number;
* `commits` is a ghost: the calls of the COMMITs that took effect, in order.

`no_lost_update`: the balance is what it was less `delta` for each committed call, and no call
commits twice, whatever fails and however often it is retried.
-/

namespace Marketplace.Retry

open Core Orders

abbrev AccountId := ℕ

def accountId : AccountId := 9001

def delta : ℤ := 1

def parallel : ℕ := 8

def initialBalance : ℤ := 100

/-- The options `debitOnce` passes. -/
def debitOptions : RetryOptions := ⟨some 20, some 15⟩

/-- The errors of the driver and the code a caller finds in them. -/
structure Driver (ε : Type) where
  pgLike : ε → Option PgLikeError
  /-- An UPDATE of a row that was committed after the snapshot. -/
  conflict : ε
  /-- `CHECK (balance_cents >= 0)`. -/
  checkViolation : ε
  /-- `rows[0].balance_cents` without a row. -/
  noRow : ε
  conflict_code : getPgErrorCode pgLike conflict = some "40001"
  check_code : getPgErrorCode pgLike checkViolation = some "23514"
  noRow_code : getPgErrorCode pgLike noRow = none

structure Db (ι : Type) where
  users : Versioned ι AccountId User
  commits : List ι

/-- Where a call is; `failures` are the errors of its attempts so far. -/
inductive Pc (ε : Type) where
  /-- About to call the callback. -/
  | call (failures : List ε)
  | select (failures : List ε)
  | update (failures : List ε) (σ : Snapshot AccountId User) (current : ℤ)
  | commit (failures : List ε) (σ : Snapshot AccountId User) (current : ℤ)
  | returned (failures : List ε)
  | thrown (failures : List ε) (error : ε)

/-- The failures of a call that has not ended. -/
def Pc.running {ε : Type} : Pc ε → Option (List ε)
  | .call failures | .select failures | .update failures _ _ | .commit failures _ _ =>
      some failures
  | .returned _ | .thrown _ _ => none

/-- A call takes its next step; its statement fails; its COMMIT takes effect and fails. -/
inductive Stmt (ε : Type) where
  | run
  | fail (error : ε)
  | lost (error : ε)

section

variable {ι ε : Type} [DecidableEq ι] (driver : Driver ε)

namespace Db

def rollback (i : ι) (d : Db ι) : Db ι := { d with users := d.users.rollback i }

def commit (i : ι) (d : Db ι) : Db ι := ⟨d.users.commit i, d.commits ++ [i]⟩

end Db

/-- The catch block of `withSerializationRetry`. -/
def caught (failures : List ε) (error : ε) : Pc ε :=
  match retryCode driver.pgLike debitOptions (failures.length + 1) error with
  | some _ => .call (failures ++ [error])
  | none => .thrown failures error

/-- `current - DELTA`, the other columns as they are. -/
def debited (current : ℤ) (user : User) : User := { user with balanceCents := current - delta }

def stmt (i : ι) (d : Db ι) : Pc ε → Stmt ε → Option (Db ι × Pc ε)
  | .call failures, .run => some (d, .select failures)
  | .select failures, .run =>
      match d.users.snapshot.row accountId with
      | some user => some (d, .update failures d.users.snapshot user.balanceCents)
      | none => some (d.rollback i, caught driver failures driver.noRow)
  | .update failures σ current, .run =>
      match d.users.update i σ accountId (debited current) with
      | .waits => none
      | .conflict => some (d.rollback i, caught driver failures driver.conflict)
      | .done users =>
          if 0 ≤ current - delta then some ({ d with users }, .commit failures σ current)
          else some (d.rollback i, caught driver failures driver.checkViolation)
  | .commit failures _ _, .run => some (d.commit i, .returned failures)
  | .returned _, .run | .thrown _ _, .run => none
  | pc, .fail error =>
      pc.running.map fun failures => (d.rollback i, caught driver failures error)
  | .commit failures _ _, .lost error =>
      if isRetryableSerializationError driver.pgLike error then none
      else some (d.commit i, caught driver failures error)
  | _, .lost _ => none

/-- What `prepare` leaves: the account has its balance, and nobody holds a row. -/
structure Init (d : Db ι) : Prop where
  balance : (d.users.rows accountId).base.map User.balanceCents = some initialBalance
  unlocked : ∀ k, (d.users.rows k).lock = none
  version : d.users.version accountId = 0
  commits : d.commits = []

/-- A call of `debitOnce` for each `i`. -/
def procs (ι : Type) [DecidableEq ι] : Procs ι (Db ι) (Pc ε) (Stmt ε) Empty where
  Init := Init
  idle := .call []
  stmt := stmt driver
  env _ e := e.elim

abbrev St (ι ε : Type) := World ι (Db ι) (Pc ε)

def machine (ι : Type) [DecidableEq ι] : Machine (St ι ε) (Act ι (Stmt ε) Empty) :=
  (procs driver ι).machine

/-- The committed balance of the account. -/
def balance (d : Db ι) : ℤ := ((d.users.rows accountId).base.map User.balanceCents).getD 0

/-! ## One step -/

variable {driver} {i j : ι} {d d' : Db ι} {pc pc' : Pc ε} {a : Stmt ε} {failures : List ε}
  {error : ε} {σ : Snapshot AccountId User} {current : ℤ}

/-- What a step of call `i` can do. -/
inductive Does (driver : Driver ε) (i : ι) (d : Db ι) : Pc ε → Stmt ε → Db ι → Pc ε → Prop
  | begins {failures : List ε} : Does driver i d (.call failures) .run d (.select failures)
  | reads {failures : List ε} {user : User} : (d.users.rows accountId).base = some user →
      Does driver i d (.select failures) .run d
        (.update failures d.users.snapshot user.balanceCents)
  | updates {failures : List ε} {σ : Snapshot AccountId User} {current : ℤ}
      {users : Versioned ι AccountId User} :
      d.users.update i σ accountId (debited current) = .done users → 0 ≤ current - delta →
      Does driver i d (.update failures σ current) .run { d with users }
        (.commit failures σ current)
  | conflicts {failures : List ε} {σ : Snapshot AccountId User} {current : ℤ} :
      d.users.update i σ accountId (debited current) = .conflict →
      Does driver i d (.update failures σ current) .run (d.rollback i)
        (caught driver failures driver.conflict)
  | commits {failures : List ε} {σ : Snapshot AccountId User} {current : ℤ} :
      Does driver i d (.commit failures σ current) .run (d.commit i) (.returned failures)
  | misses {failures : List ε} : (d.users.rows accountId).base = none →
      Does driver i d (.select failures) .run (d.rollback i)
        (caught driver failures driver.noRow)
  | refused {failures : List ε} {σ : Snapshot AccountId User} {current : ℤ} :
      ¬ 0 ≤ current - delta →
      Does driver i d (.update failures σ current) .run (d.rollback i)
        (caught driver failures driver.checkViolation)
  | fails {pc : Pc ε} {failures : List ε} {error : ε} : pc.running = some failures →
      Does driver i d pc (.fail error) (d.rollback i) (caught driver failures error)
  | loses {failures : List ε} {σ : Snapshot AccountId User} {current : ℤ} {error : ε} :
      isRetryableSerializationError driver.pgLike error = false →
      Does driver i d (.commit failures σ current) (.lost error) (d.commit i)
        (caught driver failures error)

/-- Every statement of a call is one of the ways of `Does`: later proofs split these and unfold
nothing. -/
theorem stmt_does (h : stmt driver i d pc a = some (d', pc')) : Does driver i d pc a d' pc' := by
  cases a with
  | run =>
      cases pc with
      | call failures =>
          cases h
          exact .begins
      | select failures =>
          simp only [stmt] at h
          split at h
          · next user huser =>
              cases h
              exact .reads huser
          · next hnone =>
              cases h
              exact .misses hnone
      | update failures σ current =>
          simp only [stmt] at h
          split at h
          · cases h
          · next hconflict =>
              cases h
              exact .conflicts hconflict
          · next users hdone =>
              split at h
              · next hcheck =>
                  cases h
                  exact .updates hdone hcheck
              · next hcheck =>
                  cases h
                  exact .refused hcheck
      | commit failures σ current =>
          cases h
          exact .commits
      | returned failures => simp [stmt] at h
      | thrown failures error => simp [stmt] at h
  -- any statement of a running call may fail, and all end in the catch block
  | fail error =>
      have hrun : stmt driver i d pc (.fail error) =
          pc.running.map fun failures => (d.rollback i, caught driver failures error) := by
        cases pc <;> rfl
      rw [hrun, Option.map_eq_some_iff] at h
      obtain ⟨failures, hfailures, h⟩ := h
      cases h
      exact .fails hfailures
  | lost error =>
      cases pc with
      | commit failures σ current =>
          simp only [stmt] at h
          split at h
          · cases h
          · next hnot =>
              cases h
              exact .loses (by simpa using hnot)
      | _ => simp [stmt] at h

/-! ## What a call relies on -/

/-- What everybody else leaves alone. -/
structure Rely (j : ι) (d d' : Db ι) : Prop where
  valid : ∀ σ : Snapshot AccountId User, σ.Valid j d.users → σ.Valid j d'.users
  kept : Table.Kept j d.users.rows d'.users.rows
  version : d.users.version accountId ≤ d'.users.version accountId
  commits : j ∈ d'.commits ↔ j ∈ d.commits

omit [DecidableEq ι] in
theorem Rely.refl (j : ι) (d : Db ι) : Rely j d d :=
  ⟨fun _ h => h, Table.Kept.refl j _, Nat.le_refl _, Iff.rfl⟩

/-- Another call's UPDATE leaves a snapshot valid: it only writes a draft. -/
theorem Rely.update {users : Versioned ι AccountId User}
    (h : d.users.update i σ accountId (debited current) = .done users) (hne : i ≠ j) :
    Rely j d { d with users } where
  valid _ hv := hv.update_other hne h
  kept := (Versioned.update_own h).1.kept j hne.symm
  version := by
    change d.users.version accountId ≤ users.version accountId
    rw [(Versioned.update_own h).2]
  commits := Iff.rfl

/-- Another call's ROLLBACK leaves a snapshot valid. -/
theorem Rely.rollback (hne : i ≠ j) : Rely j d (d.rollback i) where
  valid _ hv := hv.rollback_other hne
  kept := Table.Kept.rollback hne
  version := Nat.le_refl _
  commits := Iff.rfl

/-- Another call's COMMIT leaves a snapshot valid: the version it saw is remembered. -/
theorem Rely.commit (hne : i ≠ j) : Rely j d (d.commit i) where
  valid _ hv := hv.commit_other hne
  kept := Table.Kept.commit hne
  version := by
    change d.users.version accountId ≤ (d.users.commit i).version accountId
    by_cases hheld : (d.users.rows accountId).Held i
    · rw [Versioned.commit_version_held hheld]
      omega
    · rw [Versioned.commit_version_other hheld]
  commits := by simp [Db.commit, hne.symm]

/-- The call holds the account's row. -/
def Holds (i : ι) (d : Db ι) : Prop := (d.users.rows accountId).Held i

/-- The snapshot is one of this transaction, and `current` the balance it shows. -/
structure Reads (i : ι) (d : Db ι) (σ : Snapshot AccountId User) (current : ℤ) : Prop where
  valid : σ.Valid i d.users
  shows : ∃ user, σ.row accountId = some user ∧ user.balanceCents = current

/-- What a call knows where it is. -/
def Loc (driver : Driver ε) (i : ι) (d : Db ι) : Pc ε → Prop
  | .call failures | .select failures =>
      AllRetried driver.pgLike debitOptions failures ∧ i ∉ d.commits ∧ ¬ Holds i d
  | .update failures σ current =>
      AllRetried driver.pgLike debitOptions failures ∧ i ∉ d.commits ∧ ¬ Holds i d ∧
        Reads i d σ current
  | .commit failures σ current =>
      AllRetried driver.pgLike debitOptions failures ∧ i ∉ d.commits ∧ Holds i d ∧
        Reads i d σ current ∧
        (((d.users.rows accountId).view i).map User.balanceCents) = some (current - delta)
  | .returned failures =>
      AllRetried driver.pgLike debitOptions failures ∧ i ∈ d.commits ∧ ¬ Holds i d
  | .thrown failures error =>
      AllRetried driver.pgLike debitOptions failures ∧
        retryCode driver.pgLike debitOptions (failures.length + 1) error = none ∧
        (isRetryableSerializationError driver.pgLike error = true → i ∉ d.commits) ∧
        ¬ Holds i d

theorem Rely.holds (h : Rely i d d') : Holds i d' ↔ Holds i d := h.kept.held_iff

omit [DecidableEq ι] in
theorem Rely.reads (h : Rely i d d') (hr : Reads i d σ current) : Reads i d' σ current :=
  ⟨h.valid σ hr.valid, hr.shows⟩

/-- What a call knows stays true while others move. -/
theorem Loc.stable (hrely : Rely i d d') (h : Loc driver i d pc) : Loc driver i d' pc := by
  cases pc with
  | call failures | select failures =>
      exact ⟨h.1, mt hrely.commits.mp h.2.1, mt hrely.holds.mp h.2.2⟩
  | update failures σ current =>
      obtain ⟨hall, hno, hfree, hreads⟩ := h
      exact ⟨hall, mt hrely.commits.mp hno, mt hrely.holds.mp hfree, hrely.reads hreads⟩
  | commit failures σ current =>
      obtain ⟨hall, hno, hheld, hreads, hview⟩ := h
      refine ⟨hall, mt hrely.commits.mp hno, hrely.holds.mpr hheld, hrely.reads hreads, ?_⟩
      rw [hrely.kept.held accountId hheld]
      exact hview
  | returned failures =>
      exact ⟨h.1, hrely.commits.mpr h.2.1, mt hrely.holds.mp h.2.2⟩
  | thrown failures error =>
      obtain ⟨hall, hfinal, hno, hfree⟩ := h
      exact ⟨hall, hfinal, fun hretry => mt hrely.commits.mp (hno hretry),
        mt hrely.holds.mp hfree⟩

/-! ## The balance -/

/-- Each committed call took `delta`, and no call is committed twice. -/
structure Inv (d : Db ι) : Prop where
  balance : (d.users.rows accountId).base.map User.balanceCents =
    some (initialBalance - delta * d.commits.length)
  version : d.users.version accountId = d.commits.length
  once : d.commits.Nodup

omit [DecidableEq ι] in
/-- The invariant speaks of committed rows: a call's own draft does not matter. -/
theorem Inv.own (h : Inv d) {users : Versioned ι AccountId User}
    (hown : Table.Own i d.users.rows users.rows) (hversion : users.version = d.users.version) :
    Inv { d with users } where
  balance := by
    rw [hown.base]
    exact h.balance
  version := by
    rw [hversion]
    exact h.version
  once := h.once

theorem Inv.rollback (h : Inv d) : Inv (d.rollback i) := h.own (Table.Own.rollback i _) rfl

/-- COMMIT: the row it wrote over is the one it had read. -/
theorem Inv.commit (h : Inv d) (hno : i ∉ d.commits) (hheld : Holds i d)
    (hreads : Reads i d σ current)
    (hview : ((d.users.rows accountId).view i).map User.balanceCents = some (current - delta)) :
    Inv (d.commit i) where
  balance := by
    obtain ⟨user, hrow, hcurrent⟩ := hreads.shows
    have hbalance := h.balance
    rw [hreads.valid.current hheld, hrow] at hbalance
    have hamount : current = initialBalance - delta * d.commits.length := by
      rw [← hcurrent]
      exact Option.some.inj hbalance
    change ((d.users.rows.commit i accountId).base).map User.balanceCents = _
    rw [Table.commit_apply, Slot.commit_base, hview, hamount]
    simp only [Db.commit, List.length_append, List.length_singleton]
    push_cast
    rw [mul_add]
    congr 1
    omega
  version := by
    change (d.users.commit i).version accountId = (d.commits ++ [i]).length
    rw [Versioned.commit_version_held hheld, h.version, List.length_append,
      List.length_singleton]
  once := by
    change (d.commits ++ [i]).Nodup
    exact h.once.append (List.nodup_singleton i) (by simpa using hno)

/-- The catch block: a call that goes on has not committed. -/
theorem Loc.caught (hall : AllRetried driver.pgLike debitOptions failures)
    (hno : isRetryableSerializationError driver.pgLike error = true → i ∉ d.commits)
    (hfree : ¬ Holds i d) : Loc driver i d (caught driver failures error) := by
  unfold Retry.caught
  split
  · next code hcode =>
      have hspec := retryCode_some_iff.mp hcode
      have hretry : isRetryableSerializationError driver.pgLike error = true := by
        simp only [isRetryableSerializationError, hspec.1]
        exact List.contains_iff_mem.mpr hspec.2.1
      exact ⟨hall.append hcode, hno hretry, hfree⟩
  · next hnone => exact ⟨hall, hnone, hno, hfree⟩

/-- A call under way has failed only with errors that are retried, and has not committed. -/
theorem Loc.of_running (h : Loc driver i d pc) (hrun : pc.running = some failures) :
    AllRetried driver.pgLike debitOptions failures ∧ i ∉ d.commits := by
  cases pc with
  | call | select | update | commit =>
      cases hrun
      exact ⟨h.1, h.2.1⟩
  | returned | thrown => cases hrun

/-- A statement that fails changes nothing anybody can see, and the call has not committed. -/
theorem failed_keeps (hinv : Inv d) (hloc : Loc driver i d pc) (hrun : pc.running = some failures) :
    Inv (d.rollback i) ∧ Loc driver i (d.rollback i) (caught driver failures error) ∧
      ∀ j, j ≠ i → Rely j d (d.rollback i) := by
  obtain ⟨hall, hno⟩ := hloc.of_running hrun
  refine ⟨hinv.rollback, ?_, fun j hj => Rely.rollback hj.symm⟩
  apply Loc.caught hall
  · intro _
    exact hno
  · exact Slot.not_held_rollback

/-- Every statement keeps the invariant and its own call's knowledge, and does to the others what
they rely on. -/
theorem stmt_keeps (hinv : Inv d) (hloc : Loc driver i d pc)
    (h : stmt driver i d pc a = some (d', pc')) :
    Inv d' ∧ Loc driver i d' pc' ∧ ∀ j, j ≠ i → Rely j d d' := by
  cases stmt_does h with
  | begins => exact ⟨hinv, hloc, fun j _ => Rely.refl j d⟩
  | @reads failures user huser =>
      obtain ⟨hall, hno, hfree⟩ := hloc
      have hreads : Reads i d d.users.snapshot user.balanceCents :=
        ⟨Snapshot.Valid.snapshot i d.users, user, huser, rfl⟩
      exact ⟨hinv, ⟨hall, hno, hfree, hreads⟩, fun j _ => Rely.refl j d⟩
  -- the UPDATE found the row as the snapshot had it, so what is written is computed from what is
  -- committed
  | @updates failures σ current users hdone hcheck =>
      obtain ⟨hall, hno, hfree, hreads⟩ := hloc
      obtain ⟨hown, hversion⟩ := Versioned.update_own hdone
      refine ⟨hinv.own hown hversion, ?_, fun j hj => Rely.update hdone hj.symm⟩
      obtain ⟨user, hrow, hcurrent⟩ := hreads.shows
      rcases Versioned.update_first hdone hfree with ⟨hnone, -⟩ | ⟨v, -, -, rfl⟩
      · rw [hrow] at hnone
        cases hnone
      · refine ⟨hall, hno, ?_, ⟨hreads.valid.update_self hdone, hreads.shows⟩, ?_⟩
        · change ((d.users.rows.put i accountId _) accountId).Held i
          rw [Table.put_self]
          exact Slot.held_put
        · change (((d.users.rows.put i accountId _) accountId).view i).map _ = _
          rw [Table.put_self, Slot.view_put]
          rfl
  | conflicts => exact failed_keeps hinv hloc rfl
  | commits =>
      obtain ⟨hall, hno, hheld, hreads, hview⟩ := hloc
      refine ⟨hinv.commit hno hheld hreads hview, ⟨hall, ?_, Slot.not_held_commit⟩,
        fun j hj => Rely.commit hj.symm⟩
      exact List.mem_append_right _ (List.mem_singleton.mpr rfl)
  | misses => exact failed_keeps hinv hloc rfl
  | refused => exact failed_keeps hinv hloc rfl
  | fails hrun => exact failed_keeps hinv hloc hrun
  | loses hlost =>
      -- the COMMIT took effect, and the catch block throws the error
      obtain ⟨hall, hno, hheld, hreads, hview⟩ := hloc
      refine ⟨hinv.commit hno hheld hreads hview, ?_, fun j hj => Rely.commit hj.symm⟩
      apply Loc.caught hall
      · intro hretry
        rw [hlost] at hretry
        cases hretry
      · exact Slot.not_held_commit

/-! ## Whole runs -/

variable {s t : St ι ε} {acts : List (Act ι (Stmt ε) Empty)}

/-- The account's row is there, and each call knows where it is. -/
abbrev Kept (driver : Driver ε) (s : St ι ε) : Prop := Procs.Holds Inv (Loc driver) s

/-- At the start nobody has begun and nothing is committed. -/
theorem kept_init (h : (machine driver ι).Init s) : Kept driver s := by
  obtain ⟨hinit, hidle⟩ := h
  constructor
  · constructor
    · rw [hinit.balance, hinit.commits]
      rfl
    · rw [hinit.version, hinit.commits]
      rfl
    · rw [hinit.commits]
      exact List.nodup_nil
  · intro i
    rw [hidle i]
    refine ⟨?_, ?_, ?_⟩
    · intro k error hk
      cases hk
    · rw [hinit.commits]
      exact List.not_mem_nil
    · rintro ⟨v, hv⟩
      rw [hinit.unlocked] at hv
      cases hv

/-- Every step keeps the invariant and every call's knowledge. -/
theorem kept_step {act : Act ι (Stmt ε) Empty} (hn : (machine driver ι).next s act = some t)
    (h : Kept driver s) : Kept driver t := by
  refine Procs.noninterference_step (P := procs driver ι) Machine.Always Inv (Loc driver)
    ?_ ?_ trivial hn h
  · intro s i a d p _ hs hst
    obtain ⟨hinv, hloc, hrely⟩ := stmt_keeps hs.1 (hs.2 i) hst
    exact ⟨hinv, hloc, fun j hj => (hs.2 j).stable (hrely j hj)⟩
  · intro s e
    exact e.elim

theorem kept_reachable (hs : (machine driver ι).Reachable s) : Kept driver s :=
  hs.invariant (fun _ h => kept_init h) (fun _ _ _ hn h => kept_step hn h)

/-- A call that has ended did what `withSerializationRetry` does with a callback that fails so,
and committed if it returned; a call that failed for good with a serialization failure or a
deadlock, and one that has not ended, did not. -/
def Honest (driver : Driver ε) (i : ι) (d : Db ι) : Pc ε → Prop
  | .returned failures => i ∈ d.commits ∧ ∀ random,
      (withSerializationRetry driver.pgLike debitOptions (failing failures (.ok ()))
        random).result = .ok () ∧
      (withSerializationRetry driver.pgLike debitOptions (failing failures (.ok ())) random).calls =
        failures.length + 1
  | .thrown failures error =>
      (isRetryableSerializationError driver.pgLike error = true → i ∉ d.commits) ∧ ∀ random,
      (withSerializationRetry (τ := Unit) driver.pgLike debitOptions
        (failing failures (.error error)) random).result = .error error ∧
      (withSerializationRetry (τ := Unit) driver.pgLike debitOptions
        (failing failures (.error error)) random).calls = failures.length + 1
  | _ => i ∉ d.commits

/-- A call that has returned has committed once, and one that was refused with a code that is
retried has not. -/
theorem Loc.honest (h : Loc driver i d pc) : Honest driver i d pc := by
  cases pc with
  | call | select | update | commit => exact h.2.1
  | returned failures =>
      refine ⟨h.2.1, ?_⟩
      intro random
      apply withSerializationRetry_failing h.1
      intro error herror
      cases herror
  | thrown failures error =>
      refine ⟨h.2.2.1, ?_⟩
      intro random
      apply withSerializationRetry_failing h.1
      intro error' herror
      obtain rfl := Except.error.inj herror
      exact h.2.1

/-- No update is lost: in every reachable state the balance is what it was less `delta` for each
COMMIT that took effect, no call commits twice, and each call is told the truth as far as the
driver knows it. -/
theorem no_lost_update (hs : (machine driver ι).Reachable s) :
    balance s.shared = initialBalance - delta * s.shared.commits.length ∧
      s.shared.commits.Nodup ∧ ∀ i, Honest driver i s.shared (s.proc i) := by
  obtain ⟨hinv, hloc⟩ := kept_reachable hs
  refine ⟨?_, hinv.once, fun i => (hloc i).honest⟩
  rw [balance, hinv.balance]
  rfl

end

/-! ## Two calls -/

/-- Errors as node-postgres throws them: the code is on the error itself. -/
def pgDriver : Driver PgLikeError where
  pgLike := some
  conflict := ⟨some "40001", none⟩
  checkViolation := ⟨some "23514", none⟩
  noRow := ⟨none, none⟩
  conflict_code := rfl
  check_code := rfl
  noRow_code := rfl

def prepared (ι : Type) : St ι PgLikeError where
  shared :=
    ⟨⟨fun k => Slot.settled (if k = accountId then some ⟨initialBalance⟩ else none),
      fun _ => 0⟩, []⟩
  proc _ := .call []

/-- The concrete start is a proper one: the account with its hundred cents, and nobody under way.
-/
theorem prepared_init (ι : Type) [DecidableEq ι] : (machine pgDriver ι).Init (prepared ι) := by
  refine ⟨⟨?_, ?_, ?_, ?_⟩, ?_⟩
  · rfl
  · intro k
    rfl
  · rfl
  · rfl
  · intro i
    rfl

/-- Both read the balance; the first one commits, and the second one has to try again. -/
def collision : List (Act (Fin 2) (Stmt PgLikeError) Empty) :=
  [.call 0 .run, .call 1 .run, .call 0 .run, .call 1 .run, .call 0 .run, .call 0 .run,
    .call 1 .run, .call 1 .run, .call 1 .run, .call 1 .run, .call 1 .run]

/-- Two calls collide: the second fails once with 40001, runs again, and both cents are taken. -/
theorem no_lost_update_collision : ∃ s : St (Fin 2) PgLikeError,
    (machine pgDriver (Fin 2)).exec (fun _ _ => true) (prepared (Fin 2)) collision = some s ∧
      s.proc 1 = .returned [pgDriver.conflict] ∧ balance s.shared = 98 ∧
      (withSerializationRetry pgDriver.pgLike debitOptions
        (failing [pgDriver.conflict] (.ok ())) fun _ => 0).calls = 2 := by
  have hrun : ∃ s : St (Fin 2) PgLikeError,
      (machine pgDriver (Fin 2)).exec (fun _ _ => true) (prepared (Fin 2)) collision = some s ∧
        s.proc 1 = .returned [pgDriver.conflict] ∧ s.shared.commits = [0, 1] :=
    ⟨_, rfl, rfl, rfl⟩
  obtain ⟨s, hexec, hproc, hcommits⟩ := hrun
  obtain ⟨hbalance, -, hhonest⟩ := no_lost_update
    (Machine.Reachable.run (Machine.Reachable.init (prepared_init (Fin 2)))
      (Machine.exec_always hexec))
  have hsecond := hhonest 1
  rw [hproc] at hsecond
  refine ⟨s, hexec, hproc, ?_, (hsecond.2 fun _ => 0).2⟩
  rw [hbalance, hcommits]
  decide

end Marketplace.Retry
