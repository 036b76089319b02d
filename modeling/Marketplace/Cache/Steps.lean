import Marketplace.Cache.SingleFlight

/-!
# Cache.Steps — every command, once

`Does` has a constructor for each command and each outcome of `load`; `stmt_does` is the one
case analysis over `getOrLoad`. Two things hold in every run, whatever fails or expires:

* no two calls have one token (`Tokens`), so a release takes away the releaser's lock only;
* a value that is cached or returned has been loaded for its key (`Told`).
-/

namespace Marketplace.Cache

open Core

variable {ε : Type} {opts : SingleFlightOptions} {r r' : Redis} {pc pc' : Pc ε} {a : Stmt ε}
  {key : String} {lock : Lock} {i j : ℕ}

namespace Pc

def key? : Pc ε → Option String
  | .idle => none
  | .first key | .acquire key | .again key _ | .load key _ | .write key _ _
  | .release key _ _ | .poll key | .done key _ => some key

/-- The lock the call has acquired and not released. -/
def lock? : Pc ε → Option Lock
  | .again _ lock | .write _ lock _ | .release _ lock _ => some lock
  | .load _ lock => lock
  | _ => none

/-- The call reads the cache, and has no lock. -/
def Reads (key : String) (pc : Pc ε) : Prop := pc = .first key ∨ pc = .poll key

end Pc

/-- What one action of a call does. -/
inductive Does (opts : SingleFlightOptions) (r : Redis) : Pc ε → Stmt ε → Redis → Pc ε → Prop
  | begin {key : String} : Does opts r .idle (.getOrLoad key) r (.first key)
  | hit {pc : Pc ε} {key : String} {value : Option Json} : pc.Reads key →
      r.read key = some value → Does opts r pc .run r (.done key (.hit value))
  | miss {pc : Pc ε} {key : String} : pc.Reads key → r.read key = none →
      Does opts r pc .run r (.acquire key)
  | down {pc : Pc ε} {key : String} {a : Stmt ε} : pc.Reads key → a = .fail ∨ a = .lost →
      Does opts r pc a r (.load key none)
  | lock {key : String} : r.get (lockKey key) = none →
      Does opts r (.acquire key) .run
        { r with
          keys := r.keys.set (lockKey key) (.token r.nextToken) (r.now + opts.lockTtlMs)
          nextToken := r.nextToken + 1 }
        (.again key ⟨r.nextToken, r.now⟩)
  | busy {key : String} :
      Does opts r (.acquire key) .run { r with nextToken := r.nextToken + 1 } (.poll key)
  | lockFailed {key : String} {a : Stmt ε} {keys : Expiring String Raw} : a = .fail ∨ a = .lost →
      keys = r.keys ∨ r.get (lockKey key) = none ∧
        keys = r.keys.set (lockKey key) (.token r.nextToken) (r.now + opts.lockTtlMs) →
      Does opts r (.acquire key) a { r with keys, nextToken := r.nextToken + 1 } (.load key none)
  | againHit {key : String} {lock : Lock} {value : Option Json} : r.read key = some value →
      Does opts r (.again key lock) .run r (.release key lock (.hit value))
  | againMiss {key : String} {lock : Lock} : r.read key = none →
      Does opts r (.again key lock) .run r (.load key (some lock))
  | againDown {key : String} {lock : Lock} {a : Stmt ε} : a = .fail ∨ a = .lost →
      Does opts r (.again key lock) a r (.load key (some lock))
  | loaded {key : String} {lock : Option Lock} {value : Json} :
      Does opts r (.load key lock) (.loaded value) r (onLoaded key value lock)
  | threw {key : String} {lock : Option Lock} {err : ε} :
      Does opts r (.load key lock) (.threw err) r (onThrown key err lock)
  | write {key : String} {lock : Lock} {value : Json} {ttl : ℕ} {a : Stmt ε} :
      a = .set ttl ∨ a = .lostSet ttl →
      Does opts r (.write key lock value) a (r.write key value ttl)
        (.release key lock (.loaded value))
  | writeFailed {key : String} {lock : Lock} {value : Json} :
      Does opts r (.write key lock value) .fail r (.release key lock (.loaded value))
  | release {key : String} {lock : Lock} {fate : Fate ε} {a : Stmt ε} : a = .run ∨ a = .lost →
      Does opts r (.release key lock fate) a (r.release key lock) (.done key fate)
  | releaseFailed {key : String} {lock : Lock} {fate : Fate ε} :
      Does opts r (.release key lock fate) .fail r (.done key fate)

/-- `SET … NX` wins, or the lock is live. -/
theorem acquire_cases (opts : SingleFlightOptions) (key : String) (r : Redis) :
    r.get (lockKey key) = none ∧ r.acquire opts key =
      ({ r with
          keys := r.keys.set (lockKey key) (.token r.nextToken) (r.now + opts.lockTtlMs)
          nextToken := r.nextToken + 1 }, some ⟨r.nextToken, r.now⟩) ∨
    r.acquire opts key = ({ r with nextToken := r.nextToken + 1 }, none) := by
  unfold Redis.acquire
  cases hset : r.keys.setNew r.now (lockKey key) (.token r.nextToken) (r.now + opts.lockTtlMs) with
  | none => exact Or.inr rfl
  | some keys =>
      obtain ⟨hnone, rfl⟩ := Expiring.setNew_eq_some hset
      exact Or.inl ⟨hnone, rfl⟩

/-- A read of the cache is a hit with the text that is there, or a miss. -/
theorem onRead_cases (r : Redis) (key : String) (hit : Fate ε → Pc ε) (miss : Pc ε) :
    (∃ value, r.read key = some value ∧ onRead r key hit miss = hit (.hit value)) ∨
    r.read key = none ∧ onRead r key hit miss = miss := by
  unfold onRead
  cases hread : r.read key with
  | none => exact Or.inr ⟨rfl, rfl⟩
  | some value => exact Or.inl ⟨value, rfl, rfl⟩

/-- The one case analysis over `getOrLoad`. -/
theorem stmt_does (hst : stmt opts r pc a = some (r', pc')) : Does opts r pc a r' pc' := by
  -- the two reads without a lock
  have hreads : ∀ {key : String} {pc : Pc ε}, pc.Reads key →
      Does opts r pc .run r (onRead r key (.done key) (.acquire key)) := by
    intro key pc hpc
    rcases onRead_cases r key (.done key) (.acquire key) with ⟨value, hread, heq⟩ | ⟨hread, heq⟩
    · rw [heq]
      exact .hit hpc hread
    · rw [heq]
      exact .miss hpc hread
  -- one case a program point, and in it one an answer of Redis: it ran, it failed, or the answer
  -- was lost
  cases pc with
  | idle =>
      cases a <;> simp only [stmt, Option.some.injEq, Prod.mk.injEq, reduceCtorEq] at hst
      obtain ⟨rfl, rfl⟩ := hst
      exact .begin
  | first key =>
      cases a <;> simp only [stmt, Option.some.injEq, Prod.mk.injEq, reduceCtorEq] at hst
      all_goals obtain ⟨rfl, rfl⟩ := hst
      · exact hreads (Or.inl rfl)
      · exact .down (Or.inl rfl) (Or.inl rfl)
      · exact .down (Or.inl rfl) (Or.inr rfl)
  | poll key =>
      cases a <;> simp only [stmt, Option.some.injEq, Prod.mk.injEq, reduceCtorEq] at hst
      all_goals obtain ⟨rfl, rfl⟩ := hst
      · exact hreads (Or.inr rfl)
      · exact .down (Or.inr rfl) (Or.inl rfl)
      · exact .down (Or.inr rfl) (Or.inr rfl)
  | acquire key =>
      cases a <;> simp only [stmt, Option.some.injEq, Prod.mk.injEq, reduceCtorEq] at hst
      · split at hst
        · rcases acquire_cases opts key r with ⟨hnone, heq⟩ | heq
          · rw [heq] at hst
            cases hst
            exact .lock hnone
          · rw [heq] at hst
            cases hst
            exact .busy
        · cases hst
      · obtain ⟨rfl, rfl⟩ := hst
        exact .lockFailed (Or.inl rfl) (Or.inl rfl)
      · split at hst
        · rcases acquire_cases opts key r with ⟨hnone, heq⟩ | heq
          · rw [heq] at hst
            cases hst
            exact .lockFailed (Or.inr rfl) (Or.inr ⟨hnone, rfl⟩)
          · rw [heq] at hst
            cases hst
            exact .lockFailed (Or.inr rfl) (Or.inl rfl)
        · cases hst
  -- the second read, under the lock
  | again key lock =>
      cases a <;> simp only [stmt, Option.some.injEq, Prod.mk.injEq, reduceCtorEq] at hst
      all_goals obtain ⟨rfl, rfl⟩ := hst
      · rcases onRead_cases r key (.release key lock) (.load key (some lock)) with
          ⟨value, hread, heq⟩ | ⟨hread, heq⟩
        · rw [heq]
          exact .againHit hread
        · rw [heq]
          exact .againMiss hread
      · exact .againDown (Or.inl rfl)
      · exact .againDown (Or.inr rfl)
  | load key lock =>
      cases a <;> simp only [stmt, Option.some.injEq, Prod.mk.injEq, reduceCtorEq] at hst
      all_goals obtain ⟨rfl, rfl⟩ := hst
      · exact .loaded
      · exact .threw
  | write key lock value =>
      cases a <;> simp only [stmt, Option.some.injEq, Prod.mk.injEq, reduceCtorEq] at hst
      · split at hst
        · cases hst
          exact .write (Or.inl rfl)
        · cases hst
      · obtain ⟨rfl, rfl⟩ := hst
        exact .writeFailed
      · split at hst
        · cases hst
          exact .write (Or.inr rfl)
        · cases hst
  | release key lock fate =>
      cases a <;> simp only [stmt, Option.some.injEq, Prod.mk.injEq, reduceCtorEq] at hst
      all_goals obtain ⟨rfl, rfl⟩ := hst
      · exact .release (Or.inl rfl)
      · exact .releaseFailed
      · exact .release (Or.inr rfl)
  | done key fate => cases a <;> simp [stmt] at hst

/-! ## Tokens -/

/-- The locks that calls hold have tokens that were drawn, each by one of them. -/
structure Tokens (s : St ε) : Prop where
  drawn : ∀ i lock, (s.proc i).lock? = some lock → lock.token < s.shared.nextToken
  own : ∀ i j lock lock', (s.proc i).lock? = some lock → (s.proc j).lock? = some lock' →
    lock.token = lock'.token → i = j

/-- Where a call that holds a lock has it from. -/
theorem Does.lock_back (hd : Does opts r pc a r' pc') (hlock : pc'.lock? = some lock) :
    pc.lock? = some lock ∨ lock.token = r.nextToken ∧ r'.nextToken = r.nextToken + 1 := by
  cases hd with
  | lock _ =>
      cases hlock
      exact Or.inr ⟨rfl, rfl⟩
  | @loaded key lock' value =>
      cases lock' with
      | none => cases hlock
      | some l => exact Or.inl hlock
  | @threw key lock' err =>
      cases lock' with
      | none => cases hlock
      | some l => exact Or.inl hlock
  | againHit _ | againMiss _ | againDown _ | write _ | writeFailed => exact Or.inl hlock
  | _ => cases hlock

/-- Tokens are drawn in order, so the next one never goes back. -/
theorem Does.nextToken_le (hd : Does opts r pc a r' pc') : r.nextToken ≤ r'.nextToken := by
  cases hd with
  | lock _ | busy | lockFailed _ _ => exact Nat.le_succ _
  | _ => exact Nat.le_refl _

theorem env_same {e : Env} (he : env r e = some r') : r'.nextToken = r.nextToken := by
  cases e <;> cases he <;> rfl

/-- In every reachable state each lock a call holds has a token drawn before, and no two calls
have the same one. -/
theorem tokens_reachable {s : St ε} (hs : (machine ε opts).Reachable s) : Tokens s := by
  refine Machine.Reachable.invariant (P := Tokens) ?_ ?_ hs
  · intro s hinit
    refine ⟨?_, ?_⟩
    · intro i lock hlock
      rw [hinit.2 i] at hlock
      cases hlock
    · intro i j lock lock' hlock
      rw [hinit.2 i] at hlock
      cases hlock
  -- only a call that tries for a lock draws a token, and it draws a new one
  · rintro s l t hn ⟨hdrawn, hown⟩
    cases l with
    | env e =>
        obtain ⟨d, he, rfl⟩ := Procs.next_env hn
        refine ⟨?_, hown⟩
        intro i lock hlock
        change lock.token < d.nextToken
        rw [env_same he]
        exact hdrawn i lock hlock
    | call i a =>
        obtain ⟨d, p, hst, rfl⟩ := Procs.next_call hn
        have hd : Does opts s.shared (s.proc i) a d p := stmt_does hst
        -- the lock of a call is an old one of its own, or has the newest token
        have hback : ∀ j lock, (Function.update s.proc i p j).lock? = some lock →
            (s.proc j).lock? = some lock ∨
              j = i ∧ lock.token = s.shared.nextToken ∧ d.nextToken = s.shared.nextToken + 1 := by
          intro j lock hlock
          by_cases hj : j = i
          · subst hj
            rw [Function.update_self] at hlock
            exact (hd.lock_back hlock).imp_right fun h => ⟨rfl, h⟩
          · rw [Function.update_of_ne hj] at hlock
            exact Or.inl hlock
        refine ⟨?_, ?_⟩
        · intro j lock hlock
          change lock.token < d.nextToken
          rcases hback j lock hlock with hold | ⟨-, htoken, hnext⟩
          · exact Nat.lt_of_lt_of_le (hdrawn j lock hold) hd.nextToken_le
          · rw [htoken, hnext]
            exact Nat.lt_succ_self _
        · intro j j' lock lock' hlock hlock' heq
          rcases hback j lock hlock with hold | ⟨rfl, htoken, -⟩
          · rcases hback j' lock' hlock' with hold' | ⟨-, htoken', -⟩
            · exact hown j j' lock lock' hold hold' heq
            · rw [htoken'] at heq
              exact absurd heq (Nat.ne_of_lt (hdrawn j lock hold))
          · rcases hback j' lock' hlock' with hold' | ⟨rfl, -, -⟩
            · rw [htoken] at heq
              exact absurd heq.symm (Nat.ne_of_lt (hdrawn j' lock' hold'))
            · rfl

/-! ## Values -/

/-- Some call for the key has loaded the value. -/
def LoadedFor (as : List (Label ε)) (key : String) (value : Json) : Prop :=
  ∃ j, Act.call j (.getOrLoad key) ∈ as ∧ Act.call j (.loaded value) ∈ as

/-- The fate of call `i` is told by what has happened. -/
def Fate.Told (as : List (Label ε)) (i : ℕ) (key : String) : Fate ε → Prop
  | .hit value => ∃ v, value = some v ∧ LoadedFor as key v
  | .loaded value => Act.call i (.loaded value) ∈ as
  | .threw err => Act.call i (.threw err) ∈ as

def Pc.Told (as : List (Label ε)) (i : ℕ) : Pc ε → Prop
  | .idle => True
  | .first key | .acquire key | .again key _ | .load key _ | .poll key =>
      Act.call i (.getOrLoad key) ∈ as
  | .write key _ value =>
      Act.call i (.getOrLoad key) ∈ as ∧ Act.call i (.loaded value) ∈ as
  | .release key _ fate | .done key fate =>
      Act.call i (.getOrLoad key) ∈ as ∧ fate.Told as i key

/-- Every text was written for a value loaded for its key. -/
def TextsTold (as : List (Label ε)) (r : Redis) : Prop :=
  ∀ key json expiresAt, r.keys key = some ⟨.text json, expiresAt⟩ →
    ∃ value, json = .obj [("v", value)] ∧ LoadedFor as key value

variable {as bs : List (Label ε)}

theorem LoadedFor.mono {value : Json} (hsub : as ⊆ bs) (h : LoadedFor as key value) :
    LoadedFor bs key value := by
  obtain ⟨j, hbegun, hloaded⟩ := h
  exact ⟨j, hsub hbegun, hsub hloaded⟩

/-- An outcome that the steps so far account for is accounted for by any more steps. -/
theorem Fate.Told.mono {fate : Fate ε} (hsub : as ⊆ bs) (h : fate.Told as i key) :
    fate.Told bs i key := by
  cases fate with
  | hit value =>
      obtain ⟨v, hv, hloaded⟩ := h
      exact ⟨v, hv, hloaded.mono hsub⟩
  | loaded value => exact hsub h
  | threw err => exact hsub h

/-- What a call has been told by the steps so far, it has been told by more steps. -/
theorem Pc.Told.mono (hsub : as ⊆ bs) (h : pc.Told as i) : pc.Told bs i := by
  cases pc with
  | idle => trivial
  | write key lock value => exact ⟨hsub h.1, hsub h.2⟩
  | release key lock fate | done key fate => exact ⟨hsub h.1, h.2.mono hsub⟩
  | _ => exact hsub h

/-- Texts that the steps so far account for are accounted for by any more steps. -/
theorem TextsTold.mono (hsub : as ⊆ bs) (h : TextsTold as r) : TextsTold bs r := by
  intro key json expiresAt hkey
  obtain ⟨value, hjson, hloaded⟩ := h key json expiresAt hkey
  exact ⟨value, hjson, hloaded.mono hsub⟩

theorem unwrap_wrap (value : Json) : Redis.unwrap (Redis.wrap value) = some (some value) := by
  simp [Redis.unwrap, Redis.wrap, Json.prop]

/-- A read that hits finds a value loaded for its key. -/
theorem TextsTold.read {value : Option Json} (h : TextsTold as r) (hread : r.read key = some value) :
    ∃ v, value = some v ∧ LoadedFor as key v := by
  unfold Redis.read at hread
  rw [Option.bind_eq_some_iff] at hread
  obtain ⟨raw, hget, hraw⟩ := hread
  obtain ⟨⟨raw', expiresAt⟩, hkey, -, rfl⟩ := Expiring.get_eq_some.mp hget
  cases raw' with
  | token n => cases hraw
  | text json =>
      obtain ⟨v, rfl, hloaded⟩ := h key json expiresAt hkey
      have hv := hraw.symm.trans (unwrap_wrap v)
      exact ⟨v, Option.some.inj hv, hloaded⟩

/-- Entries that go away, and nothing new. -/
theorem TextsTold.shrink (h : TextsTold as r)
    (hkeys : ∀ key, r'.keys key = none ∨ r'.keys key = r.keys key) : TextsTold as r' := by
  intro key json expiresAt hkey
  rcases hkeys key with hnone | hsame
  · rw [hnone] at hkey
    cases hkey
  · exact h key json expiresAt (hsame ▸ hkey)

/-- A token is no text. -/
theorem TextsTold.setToken {key' : String} {n expiresAt : ℕ} (h : TextsTold as r)
    (hkeys : r'.keys = r.keys.set key' (.token n) expiresAt) : TextsTold as r' := by
  intro key json expiresAt' hkey
  rw [hkeys] at hkey
  by_cases hk : key = key'
  · subst hk
    rw [Expiring.set_self] at hkey
    cases hkey
  · rw [Expiring.set_ne hk] at hkey
    exact h key json expiresAt' hkey

/-- A DEL removes a key or leaves it as it was. -/
theorem del_shrinks (keys : Expiring String Raw) (key k : String) :
    keys.del key k = none ∨ keys.del key k = keys k := by
  by_cases hk : k = key
  · subst hk
    exact Or.inl Expiring.del_self
  · exact Or.inr (Expiring.del_ne hk)

/-- A release removes a key or leaves it as it was. -/
theorem release_shrinks (r : Redis) (key : String) (lock : Lock) (k : String) :
    (r.release key lock).keys k = none ∨ (r.release key lock).keys k = r.keys k := by
  unfold Redis.release
  dsimp only
  rcases Expiring.delIf_cases (S := r.keys) with heq | ⟨-, heq⟩
  · exact Or.inr (congrFun heq k)
  · rw [heq]
    exact del_shrinks r.keys (lockKey key) k

/-- An invalidation removes a key or leaves it as it was. -/
theorem invalidate_shrinks (ks : List String) (keys : Expiring String Raw) (k : String) :
    ks.foldl (fun S key => S.del key) keys k = none ∨
      ks.foldl (fun S key => S.del key) keys k = keys k := by
  induction ks generalizing keys with
  | nil => exact Or.inr rfl
  | cons key ks ih =>
      rcases ih (keys.del key) with hnone | hsame
      · exact Or.inl hnone
      · rcases del_shrinks keys key k with hdel | hdel
        · exact Or.inl (hsame.trans hdel)
        · exact Or.inr (hsame.trans hdel)

/-- The environment adds nothing to the store. -/
theorem env_shrinks {e : Env} (he : env r e = some r') (k : String) :
    r'.keys k = none ∨ r'.keys k = r.keys k := by
  cases e with
  | tick dt =>
      cases he
      exact Or.inr rfl
  | evict key =>
      cases he
      exact del_shrinks r.keys key k
  | invalidate ks =>
      cases he
      exact invalidate_shrinks ks r.keys k

/-- One step of a call. -/
theorem Does.told (hd : Does opts r pc a r' pc') (hpc : pc.Told as i) (htexts : TextsTold as r) :
    TextsTold (as ++ [.call i a]) r' ∧ pc'.Told (as ++ [.call i a]) i := by
  have hsub : as ⊆ as ++ [.call i a] := List.subset_append_left ..
  have hnow : Act.call i a ∈ as ++ [.call i a] := List.mem_append_right _ List.mem_cons_self
  have htexts' := htexts.mono hsub
  have hbegun : ∀ {key : String}, pc.Reads key → Act.call i (.getOrLoad key) ∈ as ++ [.call i a] := by
    rintro key (rfl | rfl)
    · exact hsub hpc
    · exact hsub hpc
  -- one case a kind of step; only a load adds a new value, and only a write puts one into the
  -- cache
  cases hd with
  | begin => exact ⟨htexts', hnow⟩
  | hit hreads hread => exact ⟨htexts', hbegun hreads, htexts'.read hread⟩
  | miss hreads _ => exact ⟨htexts', hbegun hreads⟩
  | down hreads _ => exact ⟨htexts', hbegun hreads⟩
  | lock _ => exact ⟨htexts'.setToken rfl, hsub hpc⟩
  | busy => exact ⟨htexts', hsub hpc⟩
  | lockFailed _ hkeys =>
      rcases hkeys with rfl | ⟨-, rfl⟩
      · exact ⟨htexts', hsub hpc⟩
      · exact ⟨htexts'.setToken rfl, hsub hpc⟩
  | againHit hread => exact ⟨htexts', hsub hpc, htexts'.read hread⟩
  | againMiss _ => exact ⟨htexts', hsub hpc⟩
  | againDown _ => exact ⟨htexts', hsub hpc⟩
  | @loaded key lock value =>
      cases lock with
      | none => exact ⟨htexts', hsub hpc, hnow⟩
      | some lock => exact ⟨htexts', hsub hpc, hnow⟩
  | @threw key lock err =>
      cases lock with
      | none => exact ⟨htexts', hsub hpc, hnow⟩
      | some lock => exact ⟨htexts', hsub hpc, hnow⟩
  | @write key lock value ttl _ _ =>
      obtain ⟨hkey, hvalue⟩ := hpc
      refine ⟨?_, hsub hkey, hsub hvalue⟩
      -- the text that is written is of the value the call has loaded
      intro k json expiresAt hk
      change r.keys.set key _ _ k = _ at hk
      by_cases hkk : k = key
      · subst hkk
        rw [Expiring.set_self] at hk
        cases hk
        exact ⟨value, rfl, i, hsub hkey, hsub hvalue⟩
      · rw [Expiring.set_ne hkk] at hk
        exact htexts' k json expiresAt hk
  | writeFailed => exact ⟨htexts', hsub hpc.1, hsub hpc.2⟩
  | @release key lock fate _ _ =>
      exact ⟨htexts'.shrink (release_shrinks r key lock), hsub hpc.1, hpc.2.mono hsub⟩
  | releaseFailed => exact ⟨htexts', hsub hpc.1, hpc.2.mono hsub⟩

/-- In every run, what is cached and what calls end with is told by what has happened. -/
theorem told_run {s₀ s : St ε} {ok : St ε → Label ε → Prop} (hinit : (machine ε opts).Init s₀)
    (hr : (machine ε opts).Run ok s₀ as s) :
    TextsTold as s.shared ∧ ∀ i, (s.proc i).Told as i := by
  induction hr with
  | refl =>
      refine ⟨?_, ?_⟩
      · intro key json expiresAt hkey
        rw [hinit.1 key] at hkey
        cases hkey
      · intro i
        rw [hinit.2 i]
        trivial
  | @step as s t l _ _ hn ih =>
      obtain ⟨htexts, hcalls⟩ := ih
      have hsub : as ⊆ as ++ [l] := List.subset_append_left ..
      cases l with
      | env e =>
          obtain ⟨d, he, rfl⟩ := Procs.next_env hn
          exact ⟨(htexts.shrink (env_shrinks he)).mono hsub, fun i => (hcalls i).mono hsub⟩
      | call i a =>
          obtain ⟨d, p, hst, rfl⟩ := Procs.next_call hn
          have hd : Does opts s.shared (s.proc i) a d p := stmt_does hst
          obtain ⟨htexts', hp⟩ := hd.told (hcalls i) htexts
          exact ⟨htexts', Procs.forall_update
            (Q := fun j (pc : Pc ε) => pc.Told (as ++ [.call i a]) j) hp
            fun j _ => (hcalls j).mono hsub⟩

end Marketplace.Cache
