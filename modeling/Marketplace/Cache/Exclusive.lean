import Marketplace.Cache.Steps

/-!
# Cache.Exclusive — one load at a time

When Redis does not fail and nobody keeps the lock longer than its lifetime, the entry of
the lock says who holds it (`Exclusive.live`), the key is empty while the holder fills it
(`Exclusive.uncached`), and so a load starts only after the last one has thrown or its value
has gone. The store may evict the lock like any other key, and then two loads run at once
(`evicted_lock`): the theorem is about runs in which a held lock is left alone.
-/

namespace Marketplace.Cache

open Core

variable {ε : Type} {opts : SingleFlightOptions}

/-! ## Who loads, and under which lock -/

/-- `load` of this call is what it ends with. -/
def Fate.Own : Fate ε → Prop
  | .hit _ => False
  | _ => True

namespace Pc

/-- The call has started a load for the key. -/
def Started (key : String) : Pc ε → Prop
  | .load k _ | .write k _ _ => k = key
  | .release k _ fate | .done k fate => k = key ∧ fate.Own
  | _ => False

/-- The load of the call has thrown. -/
def Threw (key : String) : Pc ε → Prop
  | .release k _ (.threw _) | .done k (.threw _) => k = key
  | _ => False

/-- The call has written the value it has loaded. -/
def Wrote (key : String) : Pc ε → Prop
  | .release k _ (.loaded _) | .done k (.loaded _) => k = key
  | _ => False

/-- The call holds the lock of the key. -/
def Holds (key : String) (lock : Lock) (pc : Pc ε) : Prop :=
  pc.key? = some key ∧ pc.lock? = some lock

end Pc

/-- No caller takes longer than `lockTtlMs` from acquiring the lock to releasing it. -/
def InTime (opts : SingleFlightOptions) (key : String) (s : St ε) : Prop :=
  ∀ i lock, (s.proc i).Holds key lock → s.shared.now ≤ lock.since + opts.lockTtlMs

/-- Redis does not fail, no caller is late, and `lock:key` is no key of a caller. -/
structure Timely (opts : SingleFlightOptions) (key : String) (s : St ε) (l : Label ε) : Prop where
  healthy : ∀ i a, l = .call i a → a ≠ .fail ∧ a ≠ .lost ∧ ∀ ttl, a ≠ .lostSet ttl
  inTime : ∀ t, (machine ε opts).next s l = some t → InTime opts key t
  begun : ∀ i, l ≠ .call i (.getOrLoad (lockKey key))
  invalidated : ∀ keys, l = .env (.invalidate keys) → lockKey key ∉ keys

/-- And Redis evicts no lock while a caller holds it. -/
structure LockKept (opts : SingleFlightOptions) (key : String) (s : St ε) (l : Label ε) : Prop
    extends Timely opts key s l where
  kept : l = .env (.evict (lockKey key)) → ∀ i lock, ¬ (s.proc i).Holds key lock

/-- The value under the key goes away by this step: it expires, is evicted or invalidated. -/
def Lapses (key : String) (l : Label ε) : Prop :=
  (∃ dt, l = .env (.tick dt)) ∨ l = .env (.evict key) ∨
  ∃ keys, l = .env (.invalidate keys) ∧ key ∈ keys

/-- A step from `s` to `t`, as single-flight has it for the key. -/
structure OneFlight (key : String) (s : St ε) (l : Label ε) (t : St ε) : Prop where
  /-- A load starts when every other has thrown, or has written a value that is gone. -/
  start : ∀ i j, ¬ (s.proc i).Started key → (t.proc i).Started key → j ≠ i →
    (s.proc j).Started key →
    (s.proc j).Threw key ∨ (s.proc j).Wrote key ∧ s.shared.read key = none
  /-- What a load returns is written before anything else. -/
  written : ∀ i, ¬ (s.proc i).Wrote key → (t.proc i).Wrote key →
    ∃ lock value, t.proc i = .release key lock (.loaded value) ∧
      t.shared.read key = some (some value)
  /-- Written values stay until they lapse. -/
  stays : ∀ value, s.shared.read key = some value →
    t.shared.read key = some value ∨ Lapses key l
  /-- The lock is free when its holder returns or throws. -/
  freed : ∀ i lock fate, s.proc i = .release key lock fate → t.proc i = .done key fate →
    t.shared.get (lockKey key) = none

/-- Single-flight, in every run whose steps meet `ok`. -/
def SingleFlight (ε : Type) (opts : SingleFlightOptions)
    (ok : String → St ε → Label ε → Prop) : Prop :=
  ∀ key s₀ as s l t, (machine ε opts).Init s₀ → (machine ε opts).Run (ok key) s₀ as s →
    ok key s l → (machine ε opts).next s l = some t → OneFlight key s l t

/-- What a call ends with comes from a load for its key: a value from anybody's, an
exception from its own. -/
structure FromLoads (as : List (Label ε)) (i : ℕ) (key : String) (fate : Fate ε) : Prop where
  value : ∀ v, fate.result = .ok v → ∃ j value, v = some value ∧
    .call j (.getOrLoad key) ∈ as ∧ .call j (.loaded value) ∈ as
  error : ∀ err, fate.result = .error err → .call i (.threw err) ∈ as

/-- A release, which leaves the store as it is or deletes the lock; that only with the
token of the releaser, which no other call has. -/
def ReleasesOwn (key : String) (lock : Lock) (i : ℕ) (s t : St ε) : Prop :=
  (∀ j lock', (s.proc j).lock? = some lock' → lock'.token = lock.token → j = i) ∧
  (t.shared.keys = s.shared.keys ∨
    s.shared.get (lockKey key) = some (.token lock.token) ∧
      t.shared.keys = s.shared.keys.del (lockKey key))

/-! ## The keys -/

variable {r r' : Redis} {pc pc' : Pc ε} {a : Stmt ε} {key k : String} {lock : Lock} {i j : ℕ}

/-- Two keys have different locks. -/
theorem lockKey_injective (h : lockKey key = lockKey k) : key = k := by
  have hlist := congrArg String.toList h
  simp only [lockKey, String.toList_append, List.append_cancel_left_eq] at hlist
  exact String.toList_inj.mp hlist

/-- What is read is a text. -/
theorem read_eq_some {value : Option Json} (h : r.read key = some value) :
    ∃ json, r.get key = some (.text json) := by
  unfold Redis.read at h
  rw [Option.bind_eq_some_iff] at h
  obtain ⟨raw, hget, hraw⟩ := h
  cases raw with
  | token n => cases hraw
  | text json => exact ⟨json, hget⟩

theorem read_congr (hkeys : r'.keys key = r.keys key) (hnow : r'.now = r.now) :
    r'.read key = r.read key := by
  unfold Redis.read Redis.get
  rw [hnow, Expiring.get_congr hkeys]

/-- A key that holds a token is a miss for a reader: it asks for the text of an envelope. -/
theorem read_token {n expiresAt : ℕ} (hkeys : r'.keys key = some ⟨.token n, expiresAt⟩) :
    r'.read key = none := by
  cases hread : r'.read key with
  | none => rfl
  | some value =>
      obtain ⟨json, hget⟩ := read_eq_some hread
      obtain ⟨e, he, -, hv⟩ := Expiring.get_eq_some.mp hget
      rw [hkeys] at he
      cases he
      cases hv

/-- Entries that go away while time passes are not read. -/
theorem read_shrink (hkeys : r'.keys key = none ∨ r'.keys key = r.keys key)
    (hnow : r.now ≤ r'.now) (hread : r.read key = none) : r'.read key = none := by
  cases hread' : r'.read key with
  | none => rfl
  | some value =>
      unfold Redis.read at hread hread'
      rw [Option.bind_eq_some_iff] at hread'
      obtain ⟨raw, hget, hraw⟩ := hread'
      have hlater : r.get key = some raw := by
        rcases hkeys with hnone | hsame
        · obtain ⟨e, he, -⟩ := Expiring.get_eq_some.mp hget
          rw [hnone] at he
          cases he
        · refine Expiring.get_later hnow ?_
          rw [← Expiring.get_congr hsame]
          exact hget
      rw [hlater, Option.bind_some, hraw] at hread
      cases hread

/-- The environment lets time pass and never turns it back. -/
theorem env_now {e : Env} (he : env r e = some r') : r.now ≤ r'.now := by
  cases e with
  | tick dt =>
      cases he
      exact Nat.le_add_right _ _
  | _ =>
      cases he
      exact Nat.le_refl _

/-- An invalidation deletes the keys it lists and no others. -/
theorem invalidate_ne {ks : List String} {keys : Expiring String Raw} (hk : k ∉ ks) :
    ks.foldl (fun S key => S.del key) keys k = keys k := by
  induction ks generalizing keys with
  | nil => rfl
  | cons key ks ih =>
      rw [List.mem_cons, not_or] at hk
      exact (ih hk.2).trans (Expiring.del_ne hk.1)

/-! ## What a healthy command does -/

/-- The command does not fail. -/
def Healthy (a : Stmt ε) : Prop := a ≠ .fail ∧ a ≠ .lost ∧ ∀ ttl, a ≠ .lostSet ttl

/-- A call to Redis that is healthy neither fails nor loses its answer. -/
theorem Healthy.not_failed (hh : Healthy a) : ¬ (a = .fail ∨ a = .lost) := by
  rintro (ha | ha)
  · exact hh.1 ha
  · exact hh.2.1 ha

/-- Which key a call is about does not change once it has begun. -/
theorem Does.key_back (hd : Does opts r pc a r' pc') (hkey : pc'.key? = some key) :
    pc.key? = some key ∨ a = .getOrLoad key := by
  cases hd with
  | begin =>
      cases hkey
      exact Or.inr rfl
  | hit hreads _ | miss hreads _ | down hreads _ =>
      rcases hreads with rfl | rfl <;> exact Or.inl hkey
  | @loaded key' lock value => cases lock <;> exact Or.inl hkey
  | @threw key' lock err => cases lock <;> exact Or.inl hkey
  | _ => exact Or.inl hkey

/-- A call that holds the lock has held it, or has set its entry just now. -/
theorem Does.holds_back (hd : Does opts r pc a r' pc') (hclear : pc.key? ≠ some (lockKey key))
    (hholds : pc'.Holds key lock) :
    pc.Holds key lock ∧ r'.keys (lockKey key) = r.keys (lockKey key) ∨
    r'.keys (lockKey key) = some ⟨.token lock.token, lock.since + opts.lockTtlMs⟩ := by
  obtain ⟨hkey, hlock⟩ := hholds
  cases hd with
  | lock _ =>
      cases hkey
      cases hlock
      exact Or.inr Expiring.set_self
  | againHit _ | againMiss _ | againDown _ | writeFailed => exact Or.inl ⟨⟨hkey, hlock⟩, rfl⟩
  | @loaded key' lock' value =>
      cases lock' with
      | none => cases hlock
      | some l => exact Or.inl ⟨⟨hkey, hlock⟩, rfl⟩
  | @threw key' lock' err =>
      cases lock' with
      | none => cases hlock
      | some l => exact Or.inl ⟨⟨hkey, hlock⟩, rfl⟩
  | write _ =>
      refine Or.inl ⟨⟨hkey, hlock⟩, Expiring.set_ne ?_⟩
      rintro rfl
      exact hclear rfl
  | _ => cases hlock

/-- Another call leaves a live lock where it is. -/
theorem Does.lock_stays (hd : Does opts r pc a r' pc') (hh : Healthy a)
    (hclear : pc.key? ≠ some (lockKey key))
    (hlive : r.get (lockKey key) = some (.token lock.token))
    (hother : ∀ lock', pc.Holds key lock' → lock'.token ≠ lock.token) :
    r'.keys (lockKey key) = r.keys (lockKey key) := by
  cases hd with
  | @lock key' hnone =>
      refine Expiring.set_ne ?_
      intro heq
      rw [← heq, hlive] at hnone
      cases hnone
  | lockFailed ha _ => exact absurd ha hh.not_failed
  | write _ =>
      refine Expiring.set_ne ?_
      rintro rfl
      exact hclear rfl
  | @release key' lock' fate _ _ =>
      unfold Redis.release
      dsimp only
      rcases Expiring.delIf_cases (S := r.keys) with heq | ⟨⟨raw, hget, htoken⟩, heq⟩
      · rw [heq]
      · rw [heq]
        refine Expiring.del_ne ?_
        intro hk
        have hkeys := lockKey_injective hk
        subst hkeys
        have hraw : raw = .token lock.token := Option.some.inj (hget.symm.trans hlive)
        subst hraw
        have htokens : lock.token = lock'.token := by simpa [Redis.isToken] using htoken
        exact hother lock' ⟨rfl, rfl⟩ htokens.symm
  | _ => rfl

/-- Only a write fills a key. -/
theorem Does.read_none (hd : Does opts r pc a r' pc') (hread : r.read key = none)
    (hnot : ∀ lock value, pc ≠ .write key lock value) : r'.read key = none := by
  cases hd with
  | @lock key' _ =>
      by_cases hk : key = lockKey key'
      · subst hk
        exact read_token Expiring.set_self
      · exact Eq.trans (read_congr (Expiring.set_ne hk) rfl) hread
  | @lockFailed key' _ keys _ hkeys =>
      rcases hkeys with rfl | ⟨-, rfl⟩
      · exact hread
      · by_cases hk : key = lockKey key'
        · subst hk
          exact read_token Expiring.set_self
        · exact Eq.trans (read_congr (Expiring.set_ne hk) rfl) hread
  | @write key' lock value ttl _ _ =>
      have hk : key ≠ key' := by
        rintro rfl
        exact hnot lock value rfl
      exact Eq.trans (read_congr (Expiring.set_ne hk) rfl) hread
  | @release key' lock _ _ _ =>
      exact read_shrink (release_shrinks r key' lock key) (Nat.le_refl _) hread
  | _ => exact hread

/-- Only a write replaces a value. -/
theorem Does.read_some {value : Option Json} (hd : Does opts r pc a r' pc') (hh : Healthy a)
    (hread : r.read key = some value) (hnot : ∀ lock value, pc ≠ .write key lock value) :
    r'.read key = some value := by
  obtain ⟨json, hget⟩ := read_eq_some hread
  cases hd with
  | @lock key' hnone =>
      have hk : key ≠ lockKey key' := by
        rintro rfl
        rw [hget] at hnone
        cases hnone
      exact Eq.trans (read_congr (Expiring.set_ne hk) rfl) hread
  | lockFailed ha _ => exact absurd ha hh.not_failed
  | @write key' lock value ttl _ _ =>
      have hk : key ≠ key' := by
        rintro rfl
        exact hnot lock value rfl
      exact Eq.trans (read_congr (Expiring.set_ne hk) rfl) hread
  | @release key' lock fate _ _ =>
      have hsame : (r.release key' lock).keys key = r.keys key := by
        unfold Redis.release
        dsimp only
        rcases Expiring.delIf_cases (S := r.keys) with heq | ⟨⟨raw, hraw, htoken⟩, heq⟩
        · rw [heq]
        · rw [heq]
          refine Expiring.del_ne ?_
          -- a text is no token
          rintro rfl
          have hraw' : raw = .text json := Option.some.inj (hraw.symm.trans hget)
          subst hraw'
          cases htoken
      exact Eq.trans (read_congr hsame rfl) hread
  | _ => exact hread

/-- A load starts under the lock, after a read that misses. -/
theorem Does.starts (hd : Does opts r pc a r' pc') (hh : Healthy a) (hnot : ¬ pc.Started key)
    (hstart : pc'.Started key) : (∃ lock, pc.Holds key lock) ∧ r.read key = none := by
  cases hd with
  | down _ ha | lockFailed ha _ | againDown ha => exact absurd ha hh.not_failed
  | hit hreads _ | againHit _ => exact hstart.2.elim
  | @againMiss key' lock hread =>
      cases hstart
      exact ⟨⟨lock, rfl, rfl⟩, hread⟩
  | @loaded key' lock value =>
      cases lock with
      | none => exact absurd hstart.1 hnot
      | some l => exact absurd hstart hnot
  | @threw key' lock err =>
      cases lock with
      | none => exact absurd hstart.1 hnot
      | some l => exact absurd hstart.1 hnot
  | write _ | writeFailed => exact absurd hstart.1 hnot
  | release _ | releaseFailed => exact absurd hstart hnot
  | _ => exact hstart.elim

/-- What a load returns is written, and can be read. -/
theorem Does.writes (hd : Does opts r pc a r' pc') (hh : Healthy a)
    (hlocked : pc ≠ .load key none) (hnot : ¬ pc.Wrote key) (hwrote : pc'.Wrote key) :
    ∃ lock value, pc' = .release key lock (.loaded value) ∧ r'.read key = some (some value) := by
  cases hd with
  | @loaded key' lock value =>
      cases lock with
      | none =>
          cases hwrote
          exact absurd rfl hlocked
      | some l => exact hwrote.elim
  | @threw key' lock err =>
      cases lock with
      | none => exact hwrote.elim
      | some l => exact hwrote.elim
  | @write key' lock value ttl _ _ =>
      cases hwrote
      refine ⟨lock, value, rfl, ?_⟩
      have hget : (r.write key value ttl).get key = some (Redis.wrap value) :=
        Expiring.get_of_live Expiring.set_self (Nat.le_add_right _ _)
      unfold Redis.read
      rw [hget, Option.bind_some, unwrap_wrap]
  | @release key' lock fate _ _ =>
      cases fate with
      | loaded value => exact absurd hwrote hnot
      | _ => exact hwrote.elim
  | writeFailed | releaseFailed => exact absurd rfl hh.1
  | _ => exact hwrote.elim

/-! ## The invariant -/

/-- The call fills the key under the lock. -/
def Pc.Fills (key : String) : Pc ε → Prop
  | .load k lock => k = key ∧ lock.isSome
  | .write k _ _ => k = key
  | _ => False

/-- What holds of the key while its runs are as `LockKept` has them. -/
structure Exclusive (opts : SingleFlightOptions) (key : String) (s : St ε) : Prop where
  inTime : InTime opts key s
  live : ∀ i lock, (s.proc i).Holds key lock →
    s.shared.keys (lockKey key) = some ⟨.token lock.token, lock.since + opts.lockTtlMs⟩
  uncached : ∀ i, (s.proc i).Fills key → s.shared.read key = none
  locked : ∀ i, s.proc i ≠ .load key none
  clear : ∀ i, (s.proc i).key? ≠ some (lockKey key)

/-- Whoever fills a key holds its lock. -/
theorem Pc.Fills.holds (h : pc.Fills key) : ∃ lock, pc.Holds key lock := by
  cases pc with
  | load k lock =>
      obtain ⟨rfl, hsome⟩ := h
      obtain ⟨l, rfl⟩ := Option.isSome_iff_exists.mp hsome
      exact ⟨l, rfl, rfl⟩
  | write k lock value =>
      cases h
      exact ⟨lock, rfl, rfl⟩
  | _ => exact h.elim

/-- A call begins to fill the key when it has read that there is nothing. -/
theorem Does.fills (hd : Does opts r pc a r' pc') (hh : Healthy a) (hfills : pc'.Fills key)
    (hold : pc.Fills key → r.read key = none) : r'.read key = none := by
  cases hd with
  | againMiss hread =>
      obtain ⟨rfl, -⟩ := hfills
      exact hread
  | @loaded key' lock value =>
      cases lock with
      | none => exact hfills.elim
      | some l => exact hold ⟨hfills, rfl⟩
  | @threw key' lock err => cases lock <;> exact hfills.elim
  | down _ ha | lockFailed ha _ | againDown ha => exact absurd ha hh.not_failed
  | _ => exact hfills.elim

/-- No call loads without the lock. -/
theorem Does.loads_locked (hd : Does opts r pc a r' pc') (hh : Healthy a) :
    pc' ≠ .load key none := by
  intro heq
  cases hd with
  | down _ ha | lockFailed ha _ | againDown ha => exact hh.not_failed ha
  | @loaded key' lock value => cases lock <;> cases heq
  | @threw key' lock err => cases lock <;> cases heq
  | _ => cases heq

namespace Exclusive

variable {s t : St ε}

theorem get_lock (hx : Exclusive opts key s) (hholds : (s.proc i).Holds key lock) :
    s.shared.get (lockKey key) = some (.token lock.token) :=
  Expiring.get_of_live (hx.live i lock hholds) (hx.inTime i lock hholds)

/-- One call at most holds the lock. -/
theorem unique {lock' : Lock} (hx : Exclusive opts key s) (htokens : Tokens s)
    (hi : (s.proc i).Holds key lock) (hj : (s.proc j).Holds key lock') : i = j := by
  have heq := (hx.get_lock hi).symm.trans (hx.get_lock hj)
  have htoken : lock.token = lock'.token := by
    cases lock
    cases lock'
    cases heq
    rfl
  exact htokens.own i j lock lock' hi.2 hj.2 htoken

/-- At the start nobody is under way, so nobody holds a lock. -/
theorem init (hinit : (machine ε opts).Init s) : Exclusive opts key s := by
  have hidle : ∀ i, s.proc i = .idle := hinit.2
  refine ⟨?_, ?_, ?_, ?_, ?_⟩
  · intro i lock hholds
    rw [hidle i] at hholds
    cases hholds.1
  · intro i lock hholds
    rw [hidle i] at hholds
    cases hholds.1
  · intro i hfills
    rw [hidle i] at hfills
    exact hfills.elim
  · intro i heq
    rw [hidle i] at heq
    cases heq
  · intro i heq
    rw [hidle i] at heq
    cases heq

/-- A step of the environment. -/
theorem env {e : Env} {d : Redis} (hx : Exclusive opts key s)
    (hok : LockKept opts key s (.env e)) (he : Cache.env s.shared e = some d)
    (htime : InTime opts key ⟨d, s.proc⟩) : Exclusive opts key ⟨d, s.proc⟩ := by
  refine ⟨htime, ?_, ?_, hx.locked, hx.clear⟩
  · intro i lock hholds
    -- the entry of the lock is not touched while it is held
    have hsame : d.keys (lockKey key) = s.shared.keys (lockKey key) := by
      cases e with
      | tick dt =>
          cases he
          rfl
      | evict k =>
          cases he
          refine Expiring.del_ne ?_
          rintro rfl
          exact hok.kept rfl i lock hholds
      | invalidate ks =>
          cases he
          exact invalidate_ne (hok.invalidated ks rfl)
    exact hsame.trans (hx.live i lock hholds)
  · intro i hfills
    exact read_shrink (env_shrinks he key) (env_now he) (hx.uncached i hfills)

/-- A step of a call. -/
theorem call {d : Redis} {p : Pc ε} (hx : Exclusive opts key s) (htokens : Tokens s)
    (hok : LockKept opts key s (.call i a)) (hd : Does opts s.shared (s.proc i) a d p)
    (htime : InTime opts key ⟨d, Function.update s.proc i p⟩) :
    Exclusive opts key ⟨d, Function.update s.proc i p⟩ := by
  have hh : Healthy a := hok.healthy i a rfl
  -- who fills the key is alone
  have halone : ∀ j, j ≠ i → (s.proc j).Fills key → ∀ lock value, s.proc i ≠ .write key lock value := by
    intro j hj hfills lock value heq
    obtain ⟨lock', hholds⟩ := hfills.holds
    have hown : (s.proc i).Holds key lock := by
      rw [heq]
      exact ⟨rfl, rfl⟩
    exact hj (hx.unique htokens hholds hown)
  -- the holders' locks are live, whoever fills finds nothing cached, nobody loads without a lock,
  -- and no key is the name of a lock
  refine ⟨htime, ?_, ?_, ?_, ?_⟩
  · intro j lock hholds
    by_cases hj : j = i
    · subst hj
      have hp : p.Holds key lock := by simpa using hholds
      rcases hd.holds_back (hx.clear j) hp with ⟨hold, hsame⟩ | hset
      · exact hsame.trans (hx.live j lock hold)
      · exact hset
    · have hold : (s.proc j).Holds key lock := by simpa [hj] using hholds
      refine Eq.trans (hd.lock_stays hh (hx.clear i) (hx.get_lock hold) ?_) (hx.live j lock hold)
      intro lock' hholds' heq
      exact hj (htokens.own j i lock lock' hold.2 hholds'.2 heq.symm)
  · intro j hfills
    by_cases hj : j = i
    · subst hj
      have hp : p.Fills key := by simpa using hfills
      exact hd.fills hh hp (hx.uncached j)
    · have hold : (s.proc j).Fills key := by simpa [hj] using hfills
      exact hd.read_none (hx.uncached j hold) (halone j hj hold)
  · exact Procs.forall_update (Q := fun _ (pc : Pc ε) => pc ≠ .load key none)
      (hd.loads_locked hh) fun j _ => hx.locked j
  · refine Procs.forall_update (Q := fun _ (pc : Pc ε) => pc.key? ≠ some (lockKey key)) ?_
      (fun j _ => hx.clear j)
    intro heq
    rcases hd.key_back heq with hold | rfl
    · exact hx.clear i hold
    · exact hok.begun i rfl

/-- Every step keeps a key exclusive, as long as the lock outlives the load it protects. -/
theorem step {l : Label ε} (hs : (machine ε opts).Reachable s) (hok : LockKept opts key s l)
    (hn : (machine ε opts).next s l = some t) (hx : Exclusive opts key s) :
    Exclusive opts key t := by
  have htime := hok.inTime t hn
  cases l with
  | env e =>
      obtain ⟨d, he, rfl⟩ := Procs.next_env hn
      exact hx.env hok he htime
  | call i a =>
      obtain ⟨d, p, hst, rfl⟩ := Procs.next_call hn
      exact hx.call (tokens_reachable hs) hok (stmt_does hst) htime

/-- Whoever has started a load holds the lock still, or is done with it. -/
theorem started (hx : Exclusive opts key s) (hstarted : (s.proc j).Started key) :
    (∃ lock, (s.proc j).Holds key lock) ∨ (s.proc j).Threw key ∨ (s.proc j).Wrote key := by
  have hlocked := hx.locked j
  cases hpc : s.proc j with
  | load k lock =>
      rw [hpc] at hstarted hlocked
      cases hstarted
      cases lock with
      | none => exact absurd rfl hlocked
      | some l => exact Or.inl ⟨l, rfl, rfl⟩
  | write k lock value =>
      rw [hpc] at hstarted
      cases hstarted
      exact Or.inl ⟨lock, rfl, rfl⟩
  | release k lock fate =>
      rw [hpc] at hstarted
      cases hstarted.1
      exact Or.inl ⟨lock, rfl, rfl⟩
  | done k fate =>
      rw [hpc] at hstarted
      obtain ⟨rfl, hown⟩ := hstarted
      cases fate with
      | hit value => exact hown.elim
      | loaded value => exact Or.inr (Or.inr rfl)
      | threw err => exact Or.inr (Or.inl rfl)
  | _ =>
      rw [hpc] at hstarted
      exact hstarted.elim

/-- What one step may do. -/
theorem oneFlight {l : Label ε} (hs : (machine ε opts).Reachable s) (hok : LockKept opts key s l)
    (hn : (machine ε opts).next s l = some t) (hx : Exclusive opts key s) :
    OneFlight key s l t := by
  have htokens := tokens_reachable hs
  cases l with
  | env e =>
      obtain ⟨d, he, rfl⟩ := Procs.next_env hn
      refine ⟨?_, ?_, ?_, ?_⟩
      · intro i j hnot hstart
        exact absurd hstart hnot
      · intro i hnot hwrote
        exact absurd hwrote hnot
      -- a cached text goes away only by time, by an eviction or by an invalidation of its key
      · intro value hread
        cases e with
        | tick dt => exact Or.inr (Or.inl ⟨dt, rfl⟩)
        | evict k =>
            by_cases hk : key = k
            · subst hk
              exact Or.inr (Or.inr (Or.inl rfl))
            · cases he
              exact Or.inl (Eq.trans (read_congr (Expiring.del_ne hk) rfl) hread)
        | invalidate ks =>
            by_cases hk : key ∈ ks
            · exact Or.inr (Or.inr (Or.inr ⟨ks, rfl, hk⟩))
            · cases he
              exact Or.inl (Eq.trans (read_congr (invalidate_ne hk) rfl) hread)
      · intro i lock fate hrel hdone
        have heq := hrel.symm.trans hdone
        cases heq
  | call i a =>
      have hh : Healthy a := hok.healthy i a rfl
      obtain ⟨d, p, hst, rfl⟩ := Procs.next_call hn
      have hd : Does opts s.shared (s.proc i) a d p := stmt_does hst
      -- only call `i` moves
      have hmoved : ∀ {Q : Pc ε → Prop} {j : ℕ}, ¬ Q (s.proc j) →
          Q (Function.update s.proc i p j) → j = i ∧ Q p := by
        intro Q j hnot hq
        by_cases hj : j = i
        · subst hj
          exact ⟨rfl, by simpa using hq⟩
        · rw [Function.update_of_ne hj] at hq
          exact absurd hq hnot
      refine ⟨?_, ?_, ?_, ?_⟩
      -- a call that starts to load has just set the lock, and whoever started before held it
      · intro i' j hnot hstart hne hstarted
        obtain ⟨rfl, hp⟩ := hmoved hnot hstart
        obtain ⟨⟨lock, hholds⟩, hread⟩ := hd.starts hh hnot hp
        rcases hx.started hstarted with ⟨lock', hholds'⟩ | hthrew | hwrote
        · exact absurd (hx.unique htokens hholds' hholds) hne
        · exact Or.inl hthrew
        · exact Or.inr ⟨hwrote, hread⟩
      · intro i' hnot hwrote
        obtain ⟨rfl, hp⟩ := hmoved hnot hwrote
        obtain ⟨lock, value, hpc, hread⟩ := hd.writes hh (hx.locked i') hnot hp
        exact ⟨lock, value, (Function.update_self ..).trans hpc, hread⟩
      · intro value hread
        refine Or.inl (hd.read_some hh hread ?_)
        intro lock v hpc
        have hfills : (s.proc i).Fills key := by
          rw [hpc]
          rfl
        rw [hx.uncached i hfills] at hread
        cases hread
      -- the release runs while the holder's token is there, so it deletes the lock
      · intro i' lock fate hrel hdone
        obtain ⟨rfl, hp⟩ := hmoved (Q := fun pc => pc = .done key fate)
          (by rw [hrel]; intro heq; cases heq) hdone
        subst hp
        have hholds : (s.proc i').Holds key lock := by
          rw [hrel]
          exact ⟨rfl, rfl⟩
        have hget := hx.get_lock hholds
        rw [hrel] at hd
        cases hd with
        | hit hreads _ => rcases hreads with heq | heq <;> cases heq
        | releaseFailed => exact absurd rfl hh.1
        | release _ =>
            have htoken : Redis.isToken lock.token (.token lock.token) = true := by
              simp [Redis.isToken]
            have hdel := Expiring.delIf_of_get hget htoken
            change (s.shared.release key lock).get (lockKey key) = none
            unfold Redis.get Redis.release
            dsimp only
            rw [hdel, Expiring.get_del_self]

end Exclusive

/-! ## Every run -/

/-- A release deletes the lock only if the token in it is the caller's own. -/
theorem Does.releasesOwn {fate : Fate ε} (hd : Does opts r (.release key lock fate) a r' pc') :
    r'.keys = r.keys ∨
    r.get (lockKey key) = some (.token lock.token) ∧ r'.keys = r.keys.del (lockKey key) := by
  cases hd with
  | hit hreads _ => rcases hreads with heq | heq <;> cases heq
  | miss hreads _ => rcases hreads with heq | heq <;> cases heq
  | down hreads _ => rcases hreads with heq | heq <;> cases heq
  | releaseFailed => exact Or.inl rfl
  | release _ =>
      rcases Expiring.delIf_cases (S := r.keys) with heq | ⟨⟨raw, hget, htoken⟩, heq⟩
      · exact Or.inl heq
      · refine Or.inr ⟨?_, heq⟩
        cases raw with
        | token n =>
            have hn : n = lock.token := by simpa [Redis.isToken] using htoken
            exact hn ▸ hget
        | text json => cases htoken

/-- What a call hands over comes from a load for its key: its own, or one whose text it read. -/
theorem Fate.Told.fromLoads {as : List (Label ε)} {fate : Fate ε}
    (hbegun : .call i (.getOrLoad key) ∈ as) (h : fate.Told as i key) :
    FromLoads as i key fate := by
  cases fate with
  | hit value =>
      obtain ⟨v, rfl, j, hj, hloaded⟩ := h
      constructor
      · intro w hw
        cases hw
        exact ⟨j, v, rfl, hj, hloaded⟩
      · intro err herr
        cases herr
  | loaded value =>
      constructor
      · intro w hw
        cases hw
        exact ⟨i, value, rfl, hbegun, h⟩
      · intro err herr
        cases herr
  | threw err =>
      constructor
      · intro v hv
        cases hv
      · intro err' herr
        cases herr
        exact h

/-- Single-flight, while a held lock is left alone; and in every run, calls end with what
loads for their key have returned, and a release removes the releaser's own lock only. -/
theorem single_flight (ε : Type) (opts : SingleFlightOptions) :
    SingleFlight ε opts (LockKept opts) ∧
    (∀ s₀ as s i key fate, (machine ε opts).Init s₀ →
      (machine ε opts).Run Machine.Always s₀ as s → s.proc i = .done key fate →
      FromLoads as i key fate) ∧
    ∀ s t i a key lock fate, (machine ε opts).Reachable s → s.proc i = .release key lock fate →
      (machine ε opts).next s (.call i a) = some t → ReleasesOwn key lock i s t := by
  refine ⟨?_, ?_, ?_⟩
  · intro key s₀ as s l t hinit hr hok hn
    have hx : Exclusive opts key s :=
      hr.invariant_of hinit (fun _ _ _ hs hok hn => Exclusive.step hs hok hn)
        (Exclusive.init hinit)
    exact hx.oneFlight ⟨s₀, as, hinit, hr.always⟩ hok hn
  · intro s₀ as s i key fate hinit hr hdone
    have htold := (told_run hinit hr).2 i
    rw [hdone] at htold
    exact htold.2.fromLoads htold.1
  · intro s t i a key lock fate hs hrel hn
    obtain ⟨d, p, hst, rfl⟩ := Procs.next_call hn
    have hd : Does opts s.shared (s.proc i) a d p := stmt_does hst
    rw [hrel] at hd
    refine ⟨?_, hd.releasesOwn⟩
    intro j lock' hlock' htoken
    exact (tokens_reachable hs).own j i lock' lock hlock' (by rw [hrel]; rfl) htoken

/-! ## A stampede, and a lock that is evicted -/

/-- `CARD_CACHE_OPTIONS`. -/
def cardCacheOptions : SingleFlightOptions where
  ttlBaseSec := 300
  ttlJitterSec := 60
  negativeTtlBaseSec := 30
  negativeTtlJitterSec := 15
  lockTtlMs := 5000

abbrev cards : Machine (St String) (Label String) := machine String cardCacheOptions

def noKeys : Redis := ⟨fun _ => none, 0, 0⟩

def coldStart : St String := ⟨noKeys, fun _ => .idle⟩

theorem coldStart_init : cards.Init coldStart := ⟨fun _ => rfl, fun _ => rfl⟩

/-- A lock's name is longer than the key it guards, so no key is its own lock. -/
theorem lockKey_ne (key : String) : key ≠ lockKey key := by
  intro heq
  have hlen := congrArg String.length heq
  simp [lockKey] at hlen

/-- Nothing fails, and no time passes; the key is the only one in use, and its lock is
evicted only if `evicts`. -/
def quick (evicts : Bool) (key : String) (s : St String) : Label String → Bool
  | .call _ (.getOrLoad k) => s.shared.now == 0 && k == key
  | .call _ .run | .call _ (.set _) | .call _ (.loaded _) => s.shared.now == 0
  | .env (.evict _) => s.shared.now == 0 && evicts
  | _ => false

theorem Does.now (hd : Does opts r pc a r' pc') : r'.now = r.now := by
  cases hd <;> rfl

/-- In the concrete run every load is over before its lock expires. -/
theorem quick_timely {evicts : Bool} {s : St String} {l : Label String}
    (hl : quick evicts key s l = true) : Timely cardCacheOptions key s l := by
  have hzero : s.shared.now = 0 := by
    unfold quick at hl
    split at hl <;> simp_all
  refine ⟨?_, ?_, ?_, ?_⟩
  · rintro i a rfl
    cases a <;> simp [quick] at hl ⊢
  · intro t hn i lock _
    have hnow : t.shared.now = 0 := by
      cases l with
      | call i a =>
          obtain ⟨d, p, hst, rfl⟩ := Procs.next_call hn
          exact (Does.now (stmt_does hst)).trans hzero
      | env e =>
          obtain ⟨d, he, rfl⟩ := Procs.next_env hn
          cases e with
          | evict k =>
              cases he
              exact hzero
          | _ => cases hl
    rw [hnow]
    exact Nat.zero_le _
  · rintro i rfl
    simp [quick] at hl
    exact lockKey_ne key hl.2.symm
  · rintro keys rfl
    cases hl

/-- Without evictions the concrete run keeps its locks. -/
theorem quick_lockKept {s : St String} {l : Label String} (hl : quick false key s l = true) :
    LockKept cardCacheOptions key s l := by
  refine ⟨quick_timely hl, ?_⟩
  rintro rfl
  simp [quick] at hl

def card : String := "product:card:1"

/-- Call `i` up to its load. -/
def toLoad (i : ℕ) : List (Label String) :=
  [.call i (.getOrLoad card), .call i .run, .call i .run, .call i .run]

/-- Two calls for a cold key: the second finds the lock taken, and polls. -/
def stampede : List (Label String) :=
  toLoad 1 ++ [.call 2 (.getOrLoad card), .call 2 .run, .call 2 .run,
    .call 1 (.loaded (.str "card")), .call 1 (.set 300)]

/-- The second call returns what the first has loaded, and the lock is free. -/
theorem single_flight_stampede : ∃ s lock t u,
    cards.exec (quick false card) coldStart stampede = some s ∧
    s.proc 1 = .release card lock (.loaded (.str "card")) ∧
    cards.next s (.call 1 .run) = some t ∧ cards.next t (.call 2 .run) = some u ∧
    OneFlight card s (.call 1 .run) t ∧ ReleasesOwn card lock 1 s t ∧
    FromLoads (stampede ++ [.call 1 .run] ++ [.call 2 .run]) 2 card
      (.hit (some (.str "card"))) := by
  have hrun : ∃ s lock t u, cards.exec (quick false card) coldStart stampede = some s ∧
      s.proc 1 = .release card lock (.loaded (.str "card")) ∧
      cards.next s (.call 1 .run) = some t ∧ cards.next t (.call 2 .run) = some u ∧
      u.proc 2 = .done card (.hit (some (.str "card"))) ∧
      quick false card s (.call 1 .run) = true :=
    ⟨_, _, _, _, rfl, rfl, rfl, rfl, rfl, rfl⟩
  obtain ⟨s, lock, t, u, hexec, hrel, hn, hn', hdone, hquick⟩ := hrun
  have hr : cards.Run (LockKept cardCacheOptions card) coldStart stampede s :=
    Machine.exec_run (fun _ _ hl => quick_lockKept hl) hexec
  have hreach : cards.Reachable s := ⟨coldStart, _, coldStart_init, hr.always⟩
  refine ⟨s, lock, t, u, hexec, hrel, hn, hn', ?_, ?_, ?_⟩
  · exact (single_flight String cardCacheOptions).1 card coldStart stampede s _ t coldStart_init hr
      (quick_lockKept hquick) hn
  · exact (single_flight String cardCacheOptions).2.2 s t 1 .run card lock _ hreach hrel hn
  · exact (single_flight String cardCacheOptions).2.1 coldStart _ u 2 card _ coldStart_init
      ((hr.always.step trivial hn).step trivial hn') hdone

/-- The lock of a running load is evicted, and the next caller loads as well. -/
theorem evicted_lock : ¬ SingleFlight String cardCacheOptions (Timely cardCacheOptions) := by
  intro hall
  have hrun : ∃ s t, cards.exec (quick true card) coldStart
        (toLoad 1 ++ [.env (.evict (lockKey card)), .call 2 (.getOrLoad card), .call 2 .run,
          .call 2 .run]) = some s ∧
      cards.next s (.call 2 .run) = some t ∧ quick true card s (.call 2 .run) = true ∧
      (∃ lock, s.proc 1 = .load card lock) ∧ (∃ lock, s.proc 2 = .again card lock) ∧
      ∃ lock, t.proc 2 = .load card lock :=
    ⟨_, _, rfl, rfl, rfl, ⟨_, rfl⟩, ⟨_, rfl⟩, ⟨_, rfl⟩⟩
  obtain ⟨s, t, hexec, hn, hquick, ⟨l₁, h₁⟩, ⟨l₂, h₂⟩, ⟨l₃, h₃⟩⟩ := hrun
  have hr : cards.Run (Timely cardCacheOptions card) coldStart _ s :=
    Machine.exec_run (fun _ _ hl => quick_timely hl) hexec
  have hone := hall card coldStart _ s _ t coldStart_init hr (quick_timely hquick) hn
  have hstart := hone.start 2 1
  rw [h₁, h₂, h₃] at hstart
  rcases hstart (fun hs => hs) rfl (by decide) rfl with hthrew | ⟨hwrote, -⟩
  · exact hthrew
  · exact hwrote

end Marketplace.Cache
