import Marketplace.Cache.Exclusive

/-!
# Cache.Fresh — how old a value can be

`V key value time` says that `value` was right for `key` at `time`, wherever the loads read it.
A cached text tells its age by when it runs out: it was written at most `lag` after it was right,
with a TTL of its kind. So whoever reads it gets what was right at most `lag` and one TTL before
(`Does.recent`, the one step; a system that uses the cache does the induction).
-/

namespace Marketplace.Cache

open Core

variable {ε : Type} {opts : SingleFlightOptions} {lag : ℕ} {V V' : String → Json → ℕ → Prop}
  {r r' : Redis} {pc pc' : Pc ε} {a : Stmt ε} {key : String} {value : Json} {since seen : ℕ}

/-- The longest TTL of a value, in milliseconds. -/
def lifetime (opts : SingleFlightOptions) (value : Json) : ℕ :=
  1000 * if isNull value then opts.negativeTtlBaseSec + opts.negativeTtlJitterSec
    else opts.ttlBaseSec + opts.ttlJitterSec

/-- The value was right at a moment not long before `since`. -/
def Recent (opts : SingleFlightOptions) (lag : ℕ) (V : String → Json → ℕ → Prop) (key : String)
    (value : Json) (since : ℕ) : Prop :=
  ∃ time, V key value time ∧ since ≤ time + lag + lifetime opts value

def Fate.Recent (opts : SingleFlightOptions) (lag : ℕ) (V : String → Json → ℕ → Prop)
    (key : String) (since : ℕ) : Fate ε → Prop
  | .hit value => ∃ v, value = some v ∧ Cache.Recent opts lag V key v since
  | .loaded value => Cache.Recent opts lag V key value since
  | .threw _ => True

/-- A call that began at `since`, and whose load read at `seen`. -/
def Pc.Recent (opts : SingleFlightOptions) (lag : ℕ) (V : String → Json → ℕ → Prop)
    (since seen now : ℕ) : Pc ε → Prop
  | .idle => True
  | .first _ | .acquire _ | .again _ _ | .load _ _ | .poll _ => since ≤ now
  | .write key _ value => V key value seen ∧ since ≤ seen
  | .release key _ fate | .done key fate => fate.Recent opts lag V key since

def TextsRecent (opts : SingleFlightOptions) (lag : ℕ) (V : String → Json → ℕ → Prop)
    (r : Redis) : Prop :=
  ∀ key json expiresAt, r.keys key = some ⟨.text json, expiresAt⟩ →
    ∃ value, json = .obj [("v", value)] ∧ Recent opts lag V key value expiresAt

theorem Recent.mono (hV : ∀ key value time, V key value time → V' key value time)
    (h : Recent opts lag V key value since) : Recent opts lag V' key value since := by
  obtain ⟨time, hright, hle⟩ := h
  exact ⟨time, hV key value time hright, hle⟩

theorem Recent.earlier {since' : ℕ} (hle : since' ≤ since)
    (h : Recent opts lag V key value since) : Recent opts lag V key value since' := by
  obtain ⟨time, hright, hrecent⟩ := h
  exact ⟨time, hright, by omega⟩

/-- What is right at a moment after `since` is recent. -/
theorem Recent.of_seen (hright : V key value seen) (hle : since ≤ seen) :
    Recent opts lag V key value since := ⟨seen, hright, by omega⟩

/-- An outcome that is recent stays so when more values count as right. -/
theorem Fate.Recent.mono (hV : ∀ key value time, V key value time → V' key value time)
    {fate : Fate ε} (h : fate.Recent opts lag V key since) :
    fate.Recent opts lag V' key since := by
  cases fate with
  | hit value =>
      obtain ⟨v, hv, hrecent⟩ := h
      exact ⟨v, hv, hrecent.mono hV⟩
  | loaded value => exact Cache.Recent.mono hV h
  | threw err => trivial

/-- Of a call that stands still, while the clock and what was right go on. -/
theorem Pc.Recent.mono {now now' : ℕ} (hV : ∀ key value time, V key value time → V' key value time)
    (hnow : now ≤ now') (h : pc.Recent opts lag V since seen now) :
    pc.Recent opts lag V' since seen now' := by
  cases pc with
  | idle => trivial
  | write key lock value => exact ⟨hV _ _ _ h.1, h.2⟩
  | release key lock fate | done key fate => exact Fate.Recent.mono hV h
  | _ => exact Nat.le_trans h hnow

/-- Cached texts that are recent stay so when more values count as right. -/
theorem TextsRecent.mono (hV : ∀ key value time, V key value time → V' key value time)
    (h : TextsRecent opts lag V r) : TextsRecent opts lag V' r := by
  intro key json expiresAt hkey
  obtain ⟨value, hjson, hrecent⟩ := h key json expiresAt hkey
  exact ⟨value, hjson, hrecent.mono hV⟩

/-- What is read from the cache was right at most the lag and the lifetime of the text ago. -/
theorem TextsRecent.read {value : Option Json} (h : TextsRecent opts lag V r)
    (hread : r.read key = some value) :
    ∃ v, value = some v ∧ Recent opts lag V key v r.now := by
  unfold Redis.read at hread
  obtain ⟨raw, hget, hraw⟩ := Option.bind_eq_some_iff.mp hread
  obtain ⟨⟨raw', expiresAt⟩, hkey, hlive, rfl⟩ := Expiring.get_eq_some.mp hget
  cases raw' with
  | token n => cases hraw
  | text json =>
      obtain ⟨v, rfl, hrecent⟩ := h key json expiresAt hkey
      have hv := hraw.symm.trans (unwrap_wrap v)
      -- the text had not run out
      exact ⟨v, Option.some.inj hv, hrecent.earlier hlive⟩

/-- Time, evictions and invalidations take texts away or let them expire; none gets older than its
deadline allows. -/
theorem TextsRecent.env {e : Env} (h : TextsRecent opts lag V r) (he : env r e = some r') :
    TextsRecent opts lag V r' := by
  intro key json expiresAt hkey
  rcases env_shrinks he key with hnone | hsame
  · rw [hnone] at hkey
    cases hkey
  · exact h key json expiresAt (hsame ▸ hkey)

/-- The text of a key after a step: the one before it, or the one the call has written. -/
theorem Does.text {json : Json} {expiresAt : ℕ} (hd : Does opts r pc a r' pc')
    (hkey : r'.keys key = some ⟨.text json, expiresAt⟩) :
    r.keys key = some ⟨.text json, expiresAt⟩ ∨
      ∃ lock value ttl, pc = .write key lock value ∧ (a = .set ttl ∨ a = .lostSet ttl) ∧
        json = .obj [("v", value)] ∧ expiresAt = r.now + ttl * 1000 := by
  -- where a token was set, the text is older
  have token : ∀ {k : String} {n exp : ℕ},
      (r.keys.set k (.token n) exp) key = some ⟨.text json, expiresAt⟩ →
        r.keys key = some ⟨.text json, expiresAt⟩ := by
    intro k n exp hset
    by_cases hk : key = k
    · subst hk
      rw [Expiring.set_self] at hset
      cases hset
    · rw [Expiring.set_ne hk] at hset
      exact hset
  cases hd with
  | lock _ => exact Or.inl (token hkey)
  | lockFailed _ hkeys =>
      rcases hkeys with rfl | ⟨-, rfl⟩
      · exact Or.inl hkey
      · exact Or.inl (token hkey)
  | @write k lock value ttl _ hset =>
      change r.keys.set k (Redis.wrap value) (r.now + ttl * 1000) key = _ at hkey
      by_cases hk : key = k
      · subst hk
        rw [Expiring.set_self] at hkey
        cases hkey
        exact Or.inr ⟨lock, value, ttl, rfl, hset, rfl, rfl⟩
      · rw [Expiring.set_ne hk] at hkey
        exact Or.inl hkey
  -- a release deletes at most a lock
  | @release k lock _ _ _ =>
      rcases release_shrinks r k lock key with hnone | hsame
      · rw [hnone] at hkey
        cases hkey
      · exact Or.inl (hsame ▸ hkey)
  | _ => exact Or.inl hkey

/-- The TTL of a SET is one of its value. -/
theorem stmt_ttl {lock : Lock} {ttl : ℕ} (ha : a = .set ttl ∨ a = .lostSet ttl)
    (hst : stmt opts r (.write key lock value) a = some (r', pc')) :
    ttl * 1000 ≤ lifetime opts value := by
  have hcan : CanSet opts value ttl := by
    rcases ha with rfl | rfl
    · by_contra hnot
      simp [stmt, hnot] at hst
    · by_contra hnot
      simp [stmt, hnot] at hst
  have hbound := hcan.1
  unfold TtlSeconds at hbound
  unfold lifetime
  cases hnull : isNull value with
  | true =>
      rw [hnull] at hbound
      show ttl * 1000 ≤ 1000 * (opts.negativeTtlBaseSec + opts.negativeTtlJitterSec)
      have hle : ttl ≤ opts.negativeTtlBaseSec + opts.negativeTtlJitterSec := hbound.2
      omega
  | false =>
      rw [hnull] at hbound
      show ttl * 1000 ≤ 1000 * (opts.ttlBaseSec + opts.ttlJitterSec)
      have hle : ttl ≤ opts.ttlBaseSec + opts.ttlJitterSec := hbound.2
      omega

/-- One action of a call, which may be its first. What it loads was right at `seen`, and its SET
is run at most `lag` after that. -/
theorem Does.recent (hst : stmt opts r pc a = some (r', pc'))
    (hpc : pc.Recent opts lag V since seen r.now) (htexts : TextsRecent opts lag V r)
    (hbegun : pc = .idle → since ≤ r.now)
    (hloaded : ∀ key lock value, pc = .load key lock → a = .loaded value →
      V key value seen ∧ since ≤ seen)
    (hset : ∀ ttl, a = .set ttl ∨ a = .lostSet ttl → r.now ≤ seen + lag) :
    TextsRecent opts lag V r' ∧ pc'.Recent opts lag V since seen r'.now := by
  have hd := stmt_does hst
  have hnow : r'.now = r.now := hd.now
  constructor
  · intro key json expiresAt hkey
    rcases hd.text hkey with hold | ⟨lock, value, ttl, rfl, ha, rfl, rfl⟩
    · exact htexts key json expiresAt hold
    · have httl := stmt_ttl ha hst
      have hlag := hset ttl ha
      exact ⟨value, rfl, seen, hpc.1, by omega⟩
  · rw [hnow]
    have reads : ∀ {key : String}, pc.Reads key → since ≤ r.now := by
      rintro key (rfl | rfl)
      · exact hpc
      · exact hpc
    -- reads hand over a text of the cache, loads and writes the value that was seen
    cases hd with
    | begin => exact hbegun rfl
    | hit hreads hread =>
        obtain ⟨v, hv, hrecent⟩ := htexts.read hread
        exact ⟨v, hv, hrecent.earlier (reads hreads)⟩
    | miss hreads _ | down hreads _ => exact reads hreads
    | againHit hread =>
        obtain ⟨v, hv, hrecent⟩ := htexts.read hread
        exact ⟨v, hv, hrecent.earlier hpc⟩
    -- a load without a lock hands its value over at once
    | @loaded key lock value =>
        obtain ⟨hright, hle⟩ := hloaded key lock value rfl rfl
        cases lock with
        | none => exact Recent.of_seen hright hle
        | some lock => exact ⟨hright, hle⟩
    | @threw key lock err =>
        cases lock with
        | none => trivial
        | some lock => trivial
    | write _ | writeFailed => exact Recent.of_seen hpc.1 hpc.2
    | release _ | releaseFailed => exact hpc
    | _ => exact hpc

end Marketplace.Cache
