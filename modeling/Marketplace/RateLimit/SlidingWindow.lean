import Marketplace.Core.Window
import Marketplace.Http
import Mathlib.Algebra.Order.Floor.Ring
import Mathlib.Data.List.Sort
import Mathlib.Data.Rat.Floor

/-!
# RateLimit.SlidingWindow — the limiter script and its guard

`src/rate-limit/sliding-window.ts` and `rate-limit.guard.ts`. One run of the script is one
atomic step on the sorted set of a key; `now` is Redis TIME in whole milliseconds. The member
of an entry is a fresh UUID, so ZADD always adds.

`gone` says when the server has removed a key whose deadline has passed: `pexpire` removes it
at the deadline.
-/

namespace Marketplace.RateLimit

/-- What `positiveInt` lets through. -/
structure RateLimitConfig where
  limit : ℕ
  windowMs : ℕ
  limit_pos : 0 < limit
  windowMs_pos : 0 < windowMs

structure RateLimitDecision where
  allowed : Bool
  remaining : ℤ
  retryAfterMs : ℤ
deriving DecidableEq, Repr

/-- `n` is `Number(raw)`, `none` for NaN and the infinities. -/
def positiveInt (n : Option ℚ) (fallback : ℕ) : ℕ :=
  match n with
  | some q => if q.den = 1 ∧ 0 < q then q.num.toNat else fallback
  | none => fallback

/-- Whatever the environment holds, the setting is positive if its default is. -/
theorem positiveInt_pos {n : Option ℚ} {fallback : ℕ} (h : 0 < fallback) :
    0 < positiveInt n fallback := by
  unfold positiveInt
  split
  · split
    · next hq =>
        have hnum := Rat.num_pos.mpr hq.2
        omega
    · exact h
  · exact h

def rateLimitConfigFromEnv (limit windowMs : Option ℚ) : RateLimitConfig where
  limit := positiveInt limit 60
  windowMs := positiveInt windowMs 60000
  limit_pos := positiveInt_pos (by decide)
  windowMs_pos := positiveInt_pos (by decide)

structure Entry where
  score : ℕ
  member : ℕ
deriving DecidableEq, Repr

/-- A sorted set with the time PEXPIRE gave it. -/
structure Log where
  entries : List Entry
  deadline : ℕ
deriving DecidableEq, Repr

/-- The order of a sorted set: by score, then by member. -/
def Entry.le (a b : Entry) : Prop := a.score < b.score ∨ a.score = b.score ∧ a.member ≤ b.member

instance : DecidableRel Entry.le := fun _ _ => inferInstanceAs (Decidable (_ ∨ _))

def zadd (now member : ℕ) (entries : List Entry) : List Entry :=
  entries.orderedInsert Entry.le ⟨now, member⟩

/-- `ZREMRANGEBYSCORE key -inf (now - window)`. -/
def trim (window now : ℕ) (entries : List Entry) : List Entry :=
  entries.filter fun e => !decide ((e.score : ℤ) ≤ (now : ℤ) - window)

def pexpire (now : ℕ) (log : Log) : Bool := decide (log.deadline ≤ now)

/-- `SLIDING_WINDOW`. -/
def slidingWindow (gone : ℕ → Log → Bool) (cfg : RateLimitConfig) (now member : ℕ)
    (key : Option Log) : Option Log × RateLimitDecision :=
  let log := (key.filter fun l => !gone now l).map fun l =>
    { l with entries := trim cfg.windowMs now l.entries }
  let entries := (log.map Log.entries).getD []
  if entries.length < cfg.limit then
    (some ⟨zadd now member entries, now + cfg.windowMs⟩, ⟨true, cfg.limit - entries.length - 1, 0⟩)
  else
    (log, ⟨false, 0, ((entries.map Entry.score).headD 0 : ℤ) + cfg.windowMs - now⟩)

/-- One call of `hit`. -/
structure Hit where
  now : ℕ
  member : ℕ

/-- A key and the answers it has given. -/
structure Limiter where
  key : Option Log
  history : List (ℕ × RateLimitDecision)

def Limiter.hit (gone : ℕ → Log → Bool) (cfg : RateLimitConfig) (s : Limiter) (h : Hit) : Limiter :=
  let r := slidingWindow gone cfg h.now h.member s.key
  ⟨r.1, s.history ++ [(h.now, r.2)]⟩

/-- All hits on one key, from any number of processes, in the order Redis runs them. -/
def run (gone : ℕ → Log → Bool) (cfg : RateLimitConfig) (hits : List Hit) : Limiter :=
  hits.foldl (Limiter.hit gone cfg) ⟨none, []⟩

/-- What the script answers to `h` after `hits`. -/
def decision (cfg : RateLimitConfig) (hits : List Hit) (h : Hit) : RateLimitDecision :=
  (slidingWindow pexpire cfg h.now h.member (run pexpire cfg hits).key).2

/-- When hits were allowed. -/
def allowedTimes (history : List (ℕ × RateLimitDecision)) : List ℕ :=
  (history.filter fun p => p.2.allowed).map Prod.fst

/-! ## The guard -/

/-- `Math.max(1, Math.ceil(decision.retryAfterMs / 1000))`. -/
def retryAfterSec (d : RateLimitDecision) : ℤ := max 1 ⌈(d.retryAfterMs : ℚ) / 1000⌉

abbrev Headers := List (String × String)

/-- `RateLimitGuard.canActivate`: the headers it sets, and true or the exception. The decision
is `none` if Redis failed: the guard fails open. -/
def canActivate (cfg : RateLimitConfig) : Option RateLimitDecision → Headers × Except Thrown Bool
  | none => ([], .ok true)
  | some d =>
      let headers := [("RateLimit-Limit", toString cfg.limit),
        ("RateLimit-Remaining", toString d.remaining)]
      if d.allowed then (headers, .ok true)
      else (headers ++ [("Retry-After", toString (retryAfterSec d))],
        .error (.http 429 "Too Many Requests"))

/-- The guard fails open: a request passes unless Redis answered and the answer was a refusal. -/
theorem canActivate_passes_iff {cfg : RateLimitConfig} {d : Option RateLimitDecision} :
    (canActivate cfg d).2 = .ok true ↔ ∀ answer, d = some answer → answer.allowed = true := by
  cases d with
  | none => exact ⟨fun _ answer heq => (nomatch heq), fun _ => rfl⟩
  | some answer =>
      constructor
      · intro hpass a heq
        cases heq
        by_contra hrefused
        simp only [canActivate, if_neg hrefused] at hpass
        cases hpass
      · intro hallowed
        simp only [canActivate, if_pos (hallowed answer rfl)]

/-- Whoever is not let through gets the 429 and is told to wait, a second at the least. -/
theorem canActivate_refused {cfg : RateLimitConfig} {d : Option RateLimitDecision}
    (h : (canActivate cfg d).2 ≠ .ok true) :
    (canActivate cfg d).2 = .error (.http 429 "Too Many Requests") ∧
      ∃ seconds : ℤ, 1 ≤ seconds ∧
        ("Retry-After", toString seconds) ∈ (canActivate cfg d).1 := by
  rw [Ne, canActivate_passes_iff, not_forall] at h
  obtain ⟨answer, hrefused⟩ := h
  rw [Classical.not_imp] at hrefused
  obtain ⟨rfl, hnot⟩ := hrefused
  simp only [canActivate, if_neg hnot]
  exact ⟨trivial, retryAfterSec answer, le_max_left _ _, List.mem_append_right _ (List.mem_singleton.mpr rfl)⟩

end Marketplace.RateLimit
