import Mathlib.Data.List.Chain
import Marketplace.Session.Store

/-!
# Session.Rolling — a session lives by its rolling TTL

`Life` is what a session is for: who made it when, and the times at which it was renewed. It
ends when the time since the last renewal reaches the TTL, or with a destroy, and nothing but a
`create` begins one. `run_eq` says that the keys of Redis are the lives, written as hashes; the
rest is about lives.
-/

namespace Marketplace.Session

open Core Auth

/-! ## Histories of a session -/

/-- The random id, if the call makes one. -/
def Op.created : Op → Option String
  | .create sid _ _ => some sid
  | _ => none

/-- The time of a touch of `sid` that answered data. -/
def hitAt (sid : String) : Call × Answer → Option ℕ
  | (⟨t, .touch s _⟩, .ok (some _)) => if s = sid then some t else none
  | _ => none

section

variable (store : SessionStore)

/-- Calls in the order of Redis' clock, with distinct random ids, and no two of the ids that
occur under one key. -/
structure Legal (calls : List Call) : Prop where
  clock : calls.Pairwise fun a b => a.time ≤ b.time
  ids : (calls.filterMap fun c => c.op.created).Nodup
  keys : ∀ a ∈ calls, ∀ b ∈ calls, store.keyFor a.op.sid = store.keyFor b.op.sid →
    a.op.sid = b.op.sid

/-- A touch of `sid` at `t` may follow the calls. -/
structure LegalAt (calls : List Call) (sid : String) (t : ℕ) : Prop where
  legal : Legal store calls
  clock : ∀ c ∈ calls, c.time ≤ t
  apart : ∀ c ∈ calls, store.keyFor c.op.sid = store.keyFor sid → c.op.sid = sid

/-- The calls with their answers. -/
def history : Redis → List Call → List (Call × Answer)
  | _, [] => []
  | redis, c :: calls => (c, (store.step redis c).1) :: history (store.step redis c).2 calls

/-- The times of the touches of `sid` that answered data. -/
def hits (sid : String) (calls : List Call) : List ℕ :=
  (history store (fun _ => none) calls).filterMap (hitAt sid)

/-- `sid` was created at `t₀` and has not been destroyed since. -/
def Stands (calls : List Call) (sid userId createdAt : String) (t₀ : ℕ) : Prop :=
  ∃ before after, calls = before ++ ⟨t₀, .create sid userId createdAt⟩ :: after ∧
    ∀ c ∈ after, c.op ≠ .destroy sid

/-- A touch of `sid` at `t` would answer data. -/
def Live (calls : List Call) (sid : String) (t : ℕ) : Prop :=
  ∀ now, ∃ data, store.touched calls sid now t = .ok (some data)

end

/-! ## Lives -/

structure Life where
  userId : String
  createdAt : String
  lastSeenAt : String
  start : ℕ
  renewals : List ℕ

namespace Life

def last (L : Life) : ℕ := L.renewals.getLast?.getD L.start

def deadline (ttl : ℕ) (L : Life) : ℕ := L.last + ttl

def renew (t : ℕ) (now : String) (L : Life) : Life :=
  { L with lastSeenAt := now, renewals := L.renewals ++ [t] }

def data (L : Life) : SessionData where
  userId := some L.userId
  createdAt := some L.createdAt
  lastSeenAt := some L.lastSeenAt
  requests := some ((1 + L.renewals.length : ℤ) : ℚ)

def hash (L : Life) : Hash :=
  [("userId", L.userId), ("createdAt", L.createdAt), ("lastSeenAt", L.lastSeenAt),
    ("requests", toString (1 + L.renewals.length : ℤ))]

def item (ttl : ℕ) (L : Life) : Expiring.Item Hash := ⟨L.hash, pexpire ttl L.last⟩

/-- What a call makes of the life of `sid`. -/
def turn (ttl : ℕ) (sid : String) (life : Option Life) (c : Call) : Option Life :=
  match c.op with
  | .create s userId now => if s = sid then some ⟨userId, now, now, c.time, []⟩ else life
  | .touch s now =>
      if s = sid then life.map fun L => if c.time < L.deadline ttl then L.renew c.time now else L
      else life
  | .destroy s => if s = sid then none else life

@[simp] theorem last_renew {L : Life} {t : ℕ} {now : String} : (L.renew t now).last = t := by
  simp [last, renew]

end Life

/-- The life of `sid` after the calls. -/
def life (ttl : ℕ) (sid : String) (calls : List Call) : Option Life :=
  calls.foldl (Life.turn ttl sid) none

theorem life_concat {ttl : ℕ} {sid : String} {calls : List Call} {c : Call} :
    life ttl sid (calls ++ [c]) = Life.turn ttl sid (life ttl sid calls) c :=
  List.foldl_concat ..

/-! ## The hashes are the lives -/

section

variable {store : SessionStore} {calls : List Call} {c : Call} {sid now : String} {t : ℕ}
  {redis : Redis} {L : Life}

theorem integer_toString (n : ℤ) : Hash.integer (toString n) = some n := by
  unfold Hash.integer
  rw [JsText.number_toString, Option.bind_some, Rat.num_intCast, if_pos rfl]

/-- Counting a request and noting its time turns the hash of a session into that of its renewal.
-/
theorem hincrby_hash (L : Life) (t : ℕ) (now : String) :
    L.hash.hincrby "requests" 1 =
      some ((L.renew t now).hash.hset "lastSeenAt" L.lastSeenAt) := by
  have hlookup : L.hash.lookup "requests" = some (toString (1 + L.renewals.length : ℤ)) := rfl
  unfold Hash.hincrby
  rw [hlookup]
  simp only [integer_toString, Option.map_some]
  simp [Life.hash, Life.renew, Hash.hset, add_assoc]

/-- HGETALL and the loop over its reply give the hash back. -/
theorem ofFlat_hash (L : Life) : Hash.ofFlat L.hash.hgetall [] = L.hash := by
  simp [Life.hash, Hash.hgetall, Hash.ofFlat, Hash.hset]

theorem number_requests (L : Life) :
    ((L.hash.lookup "requests").bind fun text => JsText.number text.toList) = L.data.requests :=
  JsText.number_toString _

/-- The hash is there until its deadline. -/
theorem get_item (hpos : 1 ≤ store.ttlMs)
    (hkey : redis (store.keyFor sid) = some (L.item store.ttlMs)) :
    redis.get t (store.keyFor sid) = if t < L.deadline store.ttlMs then some L.hash else none := by
  unfold Expiring.get
  rw [hkey, Option.filter_some]
  by_cases ht : t < L.deadline store.ttlMs
  · have hle : t ≤ pexpire store.ttlMs L.last := by
      unfold Life.deadline at ht
      unfold pexpire
      omega
    simp [Life.item, hle, ht]
  · have hle : ¬ t ≤ pexpire store.ttlMs L.last := by
      unfold Life.deadline at ht
      unfold pexpire
      omega
    simp [Life.item, hle, ht]

/-- A touch of a live session answers its data, counted and seen. -/
theorem touch_live (hpos : 1 ≤ store.ttlMs)
    (hkey : redis (store.keyFor sid) = some (L.item store.ttlMs))
    (ht : t < L.deadline store.ttlMs) :
    store.touch sid now t redis = (.ok (some (L.renew t now).data),
      redis.set (store.keyFor sid) (L.renew t now).hash (pexpire store.ttlMs t)) := by
  have hseen : ((L.renew t now).hash.hset "lastSeenAt" L.lastSeenAt).hset "lastSeenAt" now =
      (L.renew t now).hash := by
    simp [Life.hash, Life.renew, Hash.hset]
  unfold SessionStore.touch
  rw [get_item hpos hkey, if_pos ht]
  simp only [hincrby_hash L t now, hseen, ofFlat_hash, number_requests]
  rfl

/-- A touch of a dead session answers null and writes nothing. -/
theorem touch_dead (hget : redis.get t (store.keyFor sid) = none) :
    store.touch sid now t redis = (.ok none, redis) := by
  unfold SessionStore.touch
  rw [hget]

/-- A `create` under a key that is not there writes a new life. -/
theorem create_fresh {userId : String} (hget : redis.get t (store.keyFor sid) = none) :
    (store.create userId sid now t redis).2 = redis.set (store.keyFor sid)
      (Life.mk userId now now t []).hash (pexpire store.ttlMs t) := by
  unfold SessionStore.create
  rw [hget]
  rfl

/-- A call changes no key but its own. -/
theorem step_ne {k : String} (hk : k ≠ store.keyFor c.op.sid) :
    (store.step redis c).2 k = redis k := by
  obtain ⟨t, op⟩ := c
  cases op with
  | create s userId now => exact Expiring.set_ne hk
  | touch s now =>
      change (store.touch s now t redis).2 k = redis k
      unfold SessionStore.touch
      split
      · rfl
      · split
        · rfl
        · exact Expiring.set_ne hk
  | destroy s => exact Expiring.del_ne hk

theorem run_concat : store.run (calls ++ [c]) = (store.step (store.run calls) c).2 :=
  List.foldl_concat ..

/-- A call about another session does not touch this one's life. -/
theorem Life.turn_ne {ttl : ℕ} {o : Option Life} (h : c.op.sid ≠ sid) :
    Life.turn ttl sid o c = o := by
  obtain ⟨t, op⟩ := c
  cases op with
  | create s userId now => exact if_neg h
  | touch s now => exact if_neg h
  | destroy s => exact if_neg h

/-- A session that was never created has no life. -/
theorem life_none {ttl : ℕ} (h : ∀ c ∈ calls, c.op.created ≠ some sid) :
    life ttl sid calls = none := by
  induction calls using List.reverseRecOn with
  | nil => rfl
  | append_singleton calls c ih =>
      rw [life_concat, ih fun c' hc' => h c' (List.mem_append_left _ hc')]
      have hc := h c (List.mem_append_right _ List.mem_cons_self)
      obtain ⟨t, op⟩ := c
      cases op with
      | create s userId now => exact if_neg fun heq => hc (congrArg some heq)
      | touch s now => simp [Life.turn]
      | destroy s => simp [Life.turn]

/-- The first part of a legal run is legal. -/
theorem Legal.left {more : List Call} (h : Legal store (calls ++ more)) : Legal store calls where
  clock := (List.pairwise_append.mp h.clock).1
  ids := by
    have hids := h.ids
    rw [List.filterMap_append] at hids
    exact (List.nodup_append.mp hids).1
  keys a ha b hb := h.keys a (List.mem_append_left _ ha) b (List.mem_append_left _ hb)

/-- The last call of a legal run comes at a legal time. -/
theorem Legal.last (h : Legal store (calls ++ [c])) : LegalAt store calls c.op.sid c.time where
  legal := h.left
  clock c' hc' := (List.pairwise_append.mp h.clock).2.2 c' hc' c List.mem_cons_self
  apart c' hc' := h.keys c' (List.mem_append_left _ hc') c
    (List.mem_append_right _ List.mem_cons_self)

/-- The id of a `create` was not created before. -/
theorem Legal.fresh {userId : String} {more : List Call}
    (h : Legal store (calls ++ ⟨t, .create sid userId now⟩ :: more)) :
    ∀ c ∈ calls ++ more, c.op.created ≠ some sid := by
  intro c hc heq
  have hids := h.ids
  rw [List.filterMap_append] at hids
  have hnotMem := (List.nodup_cons.mp (List.perm_middle.nodup_iff.mp hids)).1
  rw [← List.filterMap_append] at hnotMem
  exact hnotMem (List.mem_filterMap.mpr ⟨c, hc, heq⟩)

/-- One call turns the life under its key. -/
theorem step_eq {o : Option Life} (hpos : 1 ≤ store.ttlMs)
    (hkey : redis (store.keyFor c.op.sid) = o.map (Life.item store.ttlMs))
    (hfresh : c.op.created ≠ none → o = none) :
    (store.step redis c).2 (store.keyFor c.op.sid) =
      (Life.turn store.ttlMs c.op.sid o c).map (Life.item store.ttlMs) := by
  have hget : o = none → ∀ t, redis.get t (store.keyFor c.op.sid) = none := by
    intro hnone t
    rw [hnone] at hkey
    simp [Expiring.get, hkey]
  obtain ⟨t, op⟩ := c
  cases op with
  | create s userId now =>
      obtain rfl := hfresh (by simp [Op.created])
      show (store.create userId s now t redis).2 (store.keyFor s) = _
      have hnone : redis.get t (store.keyFor s) = none := hget rfl t
      rw [create_fresh hnone]
      simp [Life.turn, Op.sid, Life.item, Life.last]
  | touch s now =>
      show (store.touch s now t redis).2 (store.keyFor s) = _
      cases o with
      | none =>
          have hnone : redis.get t (store.keyFor s) = none := hget rfl t
          rw [touch_dead hnone]
          simpa [Life.turn, Op.sid] using hkey
      | some L =>
          have hitem : redis (store.keyFor s) = some (L.item store.ttlMs) := hkey
          by_cases ht : t < L.deadline store.ttlMs
          · rw [touch_live hpos hitem ht]
            simp [Life.turn, Op.sid, ht, Life.item]
          · rw [touch_dead (by rw [get_item hpos hitem, if_neg ht])]
            simp [Life.turn, Op.sid, ht, hitem]
  | destroy s =>
      show (store.destroy s redis) (store.keyFor s) = _
      simp [SessionStore.destroy, Life.turn, Op.sid]

/-- The keys of Redis are the lives. -/
theorem run_eq (hpos : 1 ≤ store.ttlMs) (hlegal : Legal store calls)
    (hapart : ∀ c ∈ calls, store.keyFor c.op.sid = store.keyFor sid → c.op.sid = sid) :
    store.run calls (store.keyFor sid) =
      (life store.ttlMs sid calls).map (Life.item store.ttlMs) := by
  induction calls using List.reverseRecOn with
  | nil => rfl
  | append_singleton calls c ih =>
      have ih := ih hlegal.left fun c' hc' => hapart c' (List.mem_append_left _ hc')
      rw [run_concat, life_concat]
      by_cases hsid : c.op.sid = sid
      · subst hsid
        refine step_eq hpos ih ?_
        -- random ids are distinct
        intro hcreated
        obtain ⟨t, op⟩ := c
        cases op with
        | create s userId now => exact life_none fun c' hc' => hlegal.fresh c' (by simpa using hc')
        | touch s now => exact absurd rfl hcreated
        | destroy s => exact absurd rfl hcreated
      · have hkey : store.keyFor sid ≠ store.keyFor c.op.sid := by
          intro heq
          exact hsid (hapart c (List.mem_append_right _ List.mem_cons_self) heq.symm)
        rw [step_ne hkey, Life.turn_ne hsid, ih]

/-! ## What a touch answers -/

/-- What a touch makes of the life it finds. -/
def Life.answer (ttl : ℕ) (t : ℕ) (now : String) (o : Option Life) : Option SessionData :=
  o.bind fun L => if t < L.deadline ttl then some (L.renew t now).data else none

/-- What a touch answers follows from the session's life alone. -/
theorem touched_eq (hpos : 1 ≤ store.ttlMs) (hlegal : LegalAt store calls sid t) :
    store.touched calls sid now t =
      .ok (Life.answer store.ttlMs t now (life store.ttlMs sid calls)) := by
  have hkey := run_eq hpos hlegal.legal hlegal.apart
  unfold SessionStore.touched
  cases hlife : life store.ttlMs sid calls with
  | none =>
      rw [hlife] at hkey
      rw [touch_dead (by simp [Expiring.get, hkey])]
      rfl
  | some L =>
      rw [hlife] at hkey
      by_cases ht : t < L.deadline store.ttlMs
      · rw [touch_live hpos hkey ht]
        simp [Life.answer, ht]
      · rw [touch_dead (by rw [get_item hpos hkey, if_neg ht])]
        simp [Life.answer, ht]

/-- One more call adds its answer to the history. -/
theorem history_concat : history store redis (calls ++ [c]) =
    history store redis calls ++
      [(c, (store.step (calls.foldl (fun r c => (store.step r c).2) redis) c).1)] := by
  induction calls generalizing redis with
  | nil => rfl
  | cons c' calls ih => exact congrArg _ ih

/-- One more call adds its hit, if it was one. -/
theorem hits_concat : hits store sid (calls ++ [c]) =
    hits store sid calls ++ (hitAt sid (c, (store.step (store.run calls) c).1)).toList := by
  unfold hits
  rw [history_concat, List.filterMap_append]
  rfl

/-- A touch that is answered is a hit at its time. -/
theorem hitAt_touch {a : Option SessionData} :
    hitAt sid (⟨t, .touch sid now⟩, .ok a) = a.map fun _ => t := by
  cases a with
  | none => rfl
  | some data => simp [hitAt]

/-- Only touches are hits. -/
theorem hitAt_other {a : Answer} (h : ∀ now, c.op ≠ .touch sid now) : hitAt sid (c, a) = none := by
  unfold hitAt
  split
  · next t s now _ heq =>
      obtain ⟨rfl, rfl⟩ := Prod.mk.inj heq
      exact if_neg fun hs => h now (congrArg (Op.touch · now) hs)
  · rfl

/-- A touch is a hit if it finds a life before its deadline. -/
theorem hits_touch (hpos : 1 ≤ store.ttlMs)
    (hlegal : Legal store (calls ++ [⟨t, .touch sid now⟩])) :
    hits store sid (calls ++ [⟨t, .touch sid now⟩]) = hits store sid calls ++
      ((Life.answer store.ttlMs t now (life store.ttlMs sid calls)).map fun _ => t).toList := by
  have hanswer : (store.step (store.run calls) ⟨t, .touch sid now⟩).1 = _ :=
    touched_eq hpos hlegal.last
  rw [hits_concat, hanswer, hitAt_touch]

theorem hits_other (h : ∀ now, c.op ≠ .touch sid now) :
    hits store sid (calls ++ [c]) = hits store sid calls := by
  rw [hits_concat, hitAt_other h, Option.toList_none, List.append_nil]

/-- A session that was never created has no hits. -/
theorem hits_nil (hpos : 1 ≤ store.ttlMs) (hlegal : Legal store calls)
    (h : ∀ c ∈ calls, c.op.created ≠ some sid) : hits store sid calls = [] := by
  induction calls using List.reverseRecOn with
  | nil => rfl
  | append_singleton calls c ih =>
      have hleft : ∀ c' ∈ calls, c'.op.created ≠ some sid :=
        fun c' hc' => h c' (List.mem_append_left _ hc')
      by_cases htouch : ∃ now, c = ⟨c.time, .touch sid now⟩
      · obtain ⟨now, htouch⟩ := htouch
        rw [htouch] at hlegal ⊢
        rw [hits_touch hpos hlegal, ih hlegal.left hleft, life_none hleft]
        rfl
      · rw [hits_other, ih hlegal.left hleft]
        intro now hop
        exact htouch ⟨now, by rw [← hop]⟩

/-- The life of `sid` is told by the calls and their answers. -/
structure Told (store : SessionStore) (calls : List Call) (sid : String) (L : Life) : Prop where
  stands : Stands calls sid L.userId L.createdAt L.start
  renewals : L.renewals = hits store sid calls
  chain : (L.start :: L.renewals).IsChain fun a b => b < a + store.ttlMs

/-- A session that stands still does after any call but its own destroy. -/
theorem Stands.concat {userId createdAt : String} {t₀ : ℕ}
    (h : Stands calls sid userId createdAt t₀) (hc : c.op ≠ .destroy sid) :
    Stands (calls ++ [c]) sid userId createdAt t₀ := by
  obtain ⟨before, after, rfl, hafter⟩ := h
  refine ⟨before, after ++ [c], by simp, ?_⟩
  intro c' hc'
  rcases List.mem_append.mp hc' with hc' | hc'
  · exact hafter c' hc'
  · rwa [List.mem_singleton.mp hc']

/-- A call that neither touches nor destroys `sid` leaves its life as it is told. -/
theorem Told.concat (h : Told store calls sid L) (htouch : ∀ now, c.op ≠ .touch sid now)
    (hdestroy : c.op ≠ .destroy sid) : Told store (calls ++ [c]) sid L where
  stands := h.stands.concat hdestroy
  renewals := by rw [hits_other htouch, h.renewals]
  chain := h.chain

theorem chain_concat_iff {ttl : ℕ} :
    (L.start :: (L.renewals ++ [t])).IsChain (fun a b => b < a + ttl) ↔
      (L.start :: L.renewals).IsChain (fun a b => b < a + ttl) ∧ t < L.deadline ttl := by
  rw [← List.cons_append, List.isChain_append]
  simp [Life.deadline, Life.last, List.getLast?_cons]

/-- A touch that comes in time renews the session, and its hit is told; a late one is no hit. -/
theorem Told.touch (hpos : 1 ≤ store.ttlMs)
    (hlegal : Legal store (calls ++ [⟨t, .touch sid now⟩]))
    (hlife : life store.ttlMs sid calls = some L) (h : Told store calls sid L) :
    Told store (calls ++ [⟨t, .touch sid now⟩]) sid
      (if t < L.deadline store.ttlMs then L.renew t now else L) := by
  have hhits := hits_touch hpos hlegal
  rw [hlife] at hhits
  have hstands := h.stands.concat (c := ⟨t, .touch sid now⟩) (by simp)
  by_cases ht : t < L.deadline store.ttlMs
  · rw [if_pos ht]
    constructor
    · exact hstands
    · rw [hhits, ← h.renewals]
      simp [Life.answer, ht, Life.renew]
    · exact chain_concat_iff.mpr ⟨h.chain, ht⟩
  · rw [if_neg ht]
    constructor
    · exact hstands
    · rw [hhits, ← h.renewals]
      simp [Life.answer, ht]
    · exact h.chain

/-- The life of a session tells its hits, its owner and its creation. Induction on the calls, from
the last one back. -/
theorem life_told (hpos : 1 ≤ store.ttlMs) (hlegal : Legal store calls)
    (hlife : life store.ttlMs sid calls = some L) : Told store calls sid L := by
  induction calls using List.reverseRecOn generalizing L with
  | nil => cases hlife
  | append_singleton calls c ih =>
      rw [life_concat] at hlife
      by_cases hsid : c.op.sid = sid
      · obtain ⟨t, op⟩ := c
        -- a create begins a life, a touch renews it, a destroy ends it
        cases op with
        | create s userId now =>
            obtain rfl : s = sid := hsid
            obtain rfl : Life.mk userId now now t [] = L := by simpa [Life.turn] using hlife
            constructor
            · exact ⟨calls, [], rfl, by simp⟩
            · rw [hits_other (by simp), hits_nil hpos hlegal.left]
              intro c hc
              exact hlegal.fresh c (by simpa using hc)
            · exact List.isChain_singleton _
        | touch s now =>
            obtain rfl : s = sid := hsid
            cases hlife' : life store.ttlMs s calls with
            | none => simp [Life.turn, hlife'] at hlife
            | some L' =>
                have heq : (if t < L'.deadline store.ttlMs then L'.renew t now else L') = L := by
                  simpa [Life.turn, hlife'] using hlife
                rw [← heq]
                exact Told.touch hpos hlegal hlife' (ih hlegal.left hlife')
        | destroy s =>
            obtain rfl : s = sid := hsid
            simp [Life.turn] at hlife
      · rw [Life.turn_ne hsid] at hlife
        refine (ih hlegal.left hlife).concat ?_ ?_
        · intro now hop
          exact hsid (by rw [hop]; rfl)
        · intro hop
          exact hsid (by rw [hop]; rfl)

/-- What stands is alive, from the creation on. -/
theorem life_of_stands (ttl : ℕ) {userId createdAt : String} {t₀ : ℕ}
    (hlegal : Legal store calls) (h : Stands calls sid userId createdAt t₀) :
    ∃ L, life ttl sid calls = some L ∧ L.userId = userId ∧ L.createdAt = createdAt ∧
      L.start = t₀ := by
  obtain ⟨before, after, rfl, hafter⟩ := h
  have hfresh : ∀ c ∈ after, c.op.created ≠ some sid :=
    fun c hc => hlegal.fresh c (List.mem_append_right _ hc)
  clear hlegal
  induction after using List.reverseRecOn with
  | nil => exact ⟨⟨userId, createdAt, createdAt, t₀, []⟩, by simp [life_concat, Life.turn], by simp⟩
  | append_singleton after c ih =>
      obtain ⟨L, hlife, hL⟩ := ih (fun c' hc' => hafter c' (List.mem_append_left _ hc'))
        fun c' hc' => hfresh c' (List.mem_append_left _ hc')
      have hdestroy := hafter c (List.mem_append_right _ List.mem_cons_self)
      have hcreated := hfresh c (List.mem_append_right _ List.mem_cons_self)
      rw [← List.cons_append, ← List.append_assoc, life_concat, hlife]
      obtain ⟨t, op⟩ := c
      cases op with
      | create s u now => exact ⟨L, if_neg fun hs => hcreated (congrArg some hs), hL⟩
      | touch s now =>
          by_cases hs : s = sid
          · simp only [Life.turn, if_pos hs, Option.map_some]
            split
            · exact ⟨_, rfl, hL⟩
            · exact ⟨_, rfl, hL⟩
          · exact ⟨L, if_neg hs, hL⟩
      | destroy s => exact ⟨L, if_neg fun hs => hdestroy (congrArg Op.destroy hs), hL⟩

/-- A touch is answered with data exactly if the session lives at its time. -/
theorem answer_eq_some {ttl : ℕ} {o : Option Life} {data : SessionData} :
    Life.answer ttl t now o = some data ↔
      ∃ L, o = some L ∧ t < L.deadline ttl ∧ (L.renew t now).data = data := by
  unfold Life.answer
  rw [Option.bind_eq_some_iff]
  constructor
  · rintro ⟨L, hlife, hdata⟩
    split at hdata
    · next ht => exact ⟨L, hlife, ht, Option.some.inj hdata⟩
    · cases hdata
  · rintro ⟨L, hlife, ht, hdata⟩
    exact ⟨L, hlife, by rw [if_pos ht, hdata]⟩

/-- When a touch answers data, and which. -/
theorem touched_some_iff (hpos : 1 ≤ store.ttlMs)
    (hlegal : LegalAt store calls sid t) {data : SessionData} :
    store.touched calls sid now t = .ok (some data) ↔
      ∃ userId createdAt t₀, Stands calls sid userId createdAt t₀ ∧
        (t₀ :: (hits store sid calls ++ [t])).IsChain (fun a b => b < a + store.ttlMs) ∧
        data = { userId := some userId, createdAt := some createdAt, lastSeenAt := some now
                 requests := some (1 + (hits store sid calls ++ [t]).length) } := by
  rw [touched_eq hpos hlegal, Except.ok.injEq, answer_eq_some]
  constructor
  · rintro ⟨L, hlife, ht, rfl⟩
    have htold := life_told hpos hlegal.legal hlife
    refine ⟨L.userId, L.createdAt, L.start, htold.stands, ?_, ?_⟩
    · rw [← htold.renewals]
      exact chain_concat_iff.mpr ⟨htold.chain, ht⟩
    · rw [← htold.renewals]
      simp [Life.data, Life.renew]
  · rintro ⟨userId, createdAt, t₀, hstands, hchain, rfl⟩
    obtain ⟨L, hlife, rfl, rfl, rfl⟩ := life_of_stands store.ttlMs hlegal.legal hstands
    have htold := life_told hpos hlegal.legal hlife
    rw [← htold.renewals] at hchain ⊢
    refine ⟨L, hlife, (chain_concat_iff.mp hchain).2, ?_⟩
    simp [Life.data, Life.renew]

/-! ## Dead for ever -/

/-- The life is over at `t`. -/
def Over (ttl t : ℕ) (o : Option Life) : Prop := ∀ L ∈ o, L.deadline ttl ≤ t

/-- A session is live exactly if its life is not over. -/
theorem live_iff (hpos : 1 ≤ store.ttlMs) (hlegal : LegalAt store calls sid t) :
    Live store calls sid t ↔ ¬ Over store.ttlMs t (life store.ttlMs sid calls) := by
  unfold Live Over
  constructor
  · intro hlive hover
    obtain ⟨data, hdata⟩ := hlive ""
    rw [touched_eq hpos hlegal, Except.ok.injEq, answer_eq_some] at hdata
    obtain ⟨L, hlife, ht, -⟩ := hdata
    exact absurd (hover L hlife) (not_le.mpr ht)
  · intro hover now
    simp only [not_forall, not_le] at hover
    obtain ⟨L, hlife, ht⟩ := hover
    refine ⟨(L.renew t now).data, ?_⟩
    rw [touched_eq hpos hlegal, Except.ok.injEq]
    exact answer_eq_some.mpr ⟨L, hlife, ht, rfl⟩

/-- What is over stays over: a late touch does not renew. -/
theorem Over.fold {ttl : ℕ} {o : Option Life} (h : Over ttl t o) (hclock : ∀ c ∈ calls, t ≤ c.time)
    (hcreated : ∀ c ∈ calls, c.op.created ≠ some sid) :
    Over ttl t (calls.foldl (Life.turn ttl sid) o) := by
  induction calls generalizing o with
  | nil => exact h
  | cons c calls ih =>
      refine ih ?_ (fun c' hc' => hclock c' (List.mem_cons_of_mem _ hc'))
        fun c' hc' => hcreated c' (List.mem_cons_of_mem _ hc')
      have htime := hclock c List.mem_cons_self
      have hnew := hcreated c List.mem_cons_self
      obtain ⟨u, op⟩ := c
      cases op with
      | create s userId now =>
          show Over ttl t (if s = sid then _ else o)
          rwa [if_neg fun hs => hnew (congrArg some hs)]
      | touch s now =>
          intro L hL
          by_cases hs : s = sid
          · simp only [Life.turn, if_pos hs, Option.mem_def, Option.map_eq_some_iff] at hL
            obtain ⟨L', hL', rfl⟩ := hL
            have hle := h L' hL'
            rw [if_neg (not_lt.mpr (hle.trans htime))]
            exact hle
          · exact h L (by simpa [Life.turn, hs] using hL)
      | destroy s =>
          intro L hL
          by_cases hs : s = sid
          · simp [Life.turn, hs] at hL
          · exact h L (by simpa [Life.turn, hs] using hL)

theorem life_append {ttl : ℕ} {more : List Call} :
    life ttl sid (calls ++ more) = more.foldl (Life.turn ttl sid) (life ttl sid calls) :=
  List.foldl_append ..

/-- Random ids are distinct, so what was created once is not created again. -/
theorem Legal.created_once {more : List Call} (h : Legal store (calls ++ more))
    (hcreated : ∃ c ∈ calls, c.op.created = some sid) : ∀ c ∈ more, c.op.created ≠ some sid := by
  intro c hc heq
  obtain ⟨c₀, hc₀, heq₀⟩ := hcreated
  have hids := h.ids
  rw [List.filterMap_append] at hids
  exact (List.nodup_append.mp hids).2.2 sid (List.mem_filterMap.mpr ⟨c₀, hc₀, heq₀⟩) sid
    (List.mem_filterMap.mpr ⟨c, hc, heq⟩) rfl

/-- A session that is over stays over, unless it is created again. -/
theorem dead_for_ever {past later : List Call} {t' : ℕ} (hpos : 1 ≤ store.ttlMs)
    (hlegal : LegalAt store (past ++ later) sid t') (hpast : ∀ c ∈ past, c.time ≤ t)
    (hlater : ∀ c ∈ later, t ≤ c.time) (ht : t ≤ t')
    (hcreated : ∃ c ∈ past, c.op.created = some sid) (hdead : ¬ Live store past sid t) :
    ¬ Live store (past ++ later) sid t' := by
  have hat : LegalAt store past sid t := by
    constructor
    · exact hlegal.legal.left
    · exact hpast
    · intro c hc
      exact hlegal.apart c (List.mem_append_left _ hc)
  rw [live_iff hpos hat, not_not] at hdead
  rw [live_iff hpos hlegal, not_not, life_append]
  have hover := hdead.fold hlater (hlegal.legal.created_once hcreated)
  intro L hL
  exact (hover L hL).trans ht

/-! ## Rotation -/

/-- A part of a legal run is legal. -/
theorem LegalAt.sublist {calls' : List Call} (h : LegalAt store calls sid t)
    (hsub : calls'.Sublist calls) : LegalAt store calls' sid t where
  legal :=
    { clock := h.legal.clock.sublist hsub
      ids := h.legal.ids.sublist (hsub.filterMap _)
      keys := fun a ha b hb => h.legal.keys a (hsub.subset ha) b (hsub.subset hb) }
  clock c hc := h.clock c (hsub.subset hc)
  apart c hc := h.apart c (hsub.subset hc)

theorem Over.none {ttl : ℕ} : Over ttl t none := by
  intro L hL
  cases hL

theorem Stands.created {userId createdAt : String} {t₀ : ℕ}
    (h : Stands calls sid userId createdAt t₀) : ∃ c ∈ calls, c.op.created = some sid := by
  obtain ⟨before, after, rfl, -⟩ := h
  exact ⟨_, List.mem_append_right _ List.mem_cons_self, rfl⟩

/-- The calls of a request that carried a live session and made a new one, the touch of the
middleware and the two calls of the controller, with the calls of others around them. -/
def Rotates (store : SessionStore) (calls others : List Call) (sid sid' : String) (t : ℕ) : Prop :=
  ∃ h₀ h₁ h₂ t₀ now t₁ op₁ op₂ session user date,
    ReqSession.ofTouch sid (store.touched h₀ sid now t₀) = some session ∧
    SessionController.create (some session) user sid' date = [op₁, op₂] ∧
    calls = h₀ ++ [⟨t₀, .touch sid now⟩] ++ h₁ ++ [⟨t₁, op₁⟩] ++ h₂ ++ [⟨t, op₂⟩] ∧
    others = h₀ ++ [⟨t₀, .touch sid now⟩] ++ h₁ ++ h₂

section

variable {others : List Call} {sid' : String}

/-- The request's session is what the touch answered. -/
theorem ofTouch_eq_some {a : Answer} {session : ReqSession}
    (h : ReqSession.ofTouch sid a = some session) :
    a = .ok (some session.data) ∧ session.sid = sid := by
  unfold ReqSession.ofTouch at h
  split at h
  · cases h
    exact ⟨rfl, rfl⟩
  · cases h

/-- The controller destroys the old id and then creates the new one. -/
theorem Rotates.cut (h : Rotates store calls others sid sid' t) :
    ∃ before between data t₁ user date, calls =
        before ++ [⟨t₁, .destroy sid⟩] ++ between ++ [⟨t, .create sid' user date⟩] ∧
      others = before ++ between ∧
      ∃ h₀ h₁ t₀ now, before = h₀ ++ [⟨t₀, .touch sid now⟩] ++ h₁ ∧
        store.touched h₀ sid now t₀ = .ok (some data) := by
  obtain ⟨h₀, h₁, h₂, t₀, now, t₁, op₁, op₂, session, user, date, hsession, hops, rfl, rfl⟩ := h
  obtain ⟨hdata, rfl⟩ := ofTouch_eq_some hsession
  have hops' : [Op.destroy session.sid, .create sid' (toString user.sub) date] = [op₁, op₂] := hops
  simp only [List.cons.injEq, and_true] at hops'
  obtain ⟨rfl, rfl⟩ := hops'
  exact ⟨h₀ ++ [⟨t₀, .touch session.sid now⟩] ++ h₁, h₂, session.data, t₁, _, _, rfl, rfl, h₀, h₁,
    t₀, now, rfl, hdata⟩

/-- A session that a touch found was created before. -/
theorem created_of_touched {data : SessionData} {more : List Call} (hpos : 1 ≤ store.ttlMs)
    (hlegal : Legal store (calls ++ ⟨t, .touch sid now⟩ :: more))
    (hdata : store.touched calls sid now t = .ok (some data)) :
    ∃ c ∈ calls, c.op.created = some sid := by
  have hlegal' : Legal store (calls ++ [⟨t, .touch sid now⟩]) := by
    rw [← List.singleton_append, ← List.append_assoc] at hlegal
    exact hlegal.left
  obtain ⟨userId, createdAt, t₀, hstands, -⟩ := (touched_some_iff hpos hlegal'.last).mp hdata
  exact hstands.created

/-- The session that is rotated was created before. -/
theorem Rotates.created (h : Rotates store calls others sid sid' t) (hpos : 1 ≤ store.ttlMs)
    (hlegal : Legal store calls) : ∃ c ∈ calls, c.op.created = some sid := by
  obtain ⟨before, between, data, t₁, user, date, rfl, -, h₀, h₁, t₀, now, rfl, hdata⟩ := h.cut
  simp only [List.append_assoc, List.singleton_append] at hlegal ⊢
  obtain ⟨c, hc, hcreated⟩ := created_of_touched hpos hlegal hdata
  exact ⟨c, List.mem_append_left _ hc, hcreated⟩

/-- The other calls of a rotation are calls of the run. -/
theorem Rotates.sublist (h : Rotates store calls others sid sid' t) : others.Sublist calls := by
  obtain ⟨before, between, data, t₁, user, date, rfl, rfl, -⟩ := h.cut
  have hbefore : before.Sublist (before ++ [⟨t₁, .destroy sid⟩]) := List.sublist_append_left ..
  exact (hbefore.append (List.Sublist.refl between)).trans (List.sublist_append_left ..)

/-- The new session begins. -/
theorem Rotates.life_new (h : Rotates store calls others sid sid' t) (ttl : ℕ) :
    ∃ L, life ttl sid' calls = some L ∧ L.last = t := by
  obtain ⟨before, between, data, t₁, user, date, rfl, -⟩ := h.cut
  refine ⟨⟨user, date, date, t, []⟩, ?_, rfl⟩
  rw [life_concat]
  exact if_pos rfl

/-- The old one is over. -/
theorem Rotates.life_old (h : Rotates store calls others sid sid' t) (hpos : 1 ≤ store.ttlMs)
    (hlegal : Legal store calls) (ttl : ℕ) : life ttl sid calls = none := by
  obtain ⟨before, between, data, t₁, user, date, rfl, -, h₀, h₁, t₀, now, rfl, hdata⟩ := h.cut
  have hmore : ∃ c ∈ h₀ ++ [⟨t₀, .touch sid now⟩] ++ h₁ ++ [⟨t₁, .destroy sid⟩],
      c.op.created = some sid := by
    have hlegal' := hlegal
    simp only [List.append_assoc, List.singleton_append] at hlegal' ⊢
    obtain ⟨c, hc, hcreated⟩ := created_of_touched hpos hlegal' hdata
    exact ⟨c, List.mem_append_left _ hc, hcreated⟩
  rw [List.append_assoc _ between] at hlegal ⊢
  rw [life_append, life_concat, show Life.turn ttl sid _ ⟨t₁, .destroy sid⟩ = none from if_pos rfl]
  exact life_none (hlegal.created_once hmore)

/-- All others go on as without the request. -/
theorem Rotates.life_other (h : Rotates store calls others sid sid' t) {s : String} {ttl : ℕ}
    (hnew : s ≠ sid') (hold : s ≠ sid) : life ttl s calls = life ttl s others := by
  obtain ⟨before, between, data, t₁, user, date, rfl, rfl, -⟩ := h.cut
  rw [life_concat, Life.turn_ne (Ne.symm hnew : (Op.create sid' user date).sid ≠ s), life_append,
    life_concat, Life.turn_ne (Ne.symm hold : (Op.destroy sid).sid ≠ s), life_append]

/-- After a rotation the new session is live, the old one is not, and all others are as before. -/
theorem Rotates.live_iff (h : Rotates store calls others sid sid' t) (hpos : 1 ≤ store.ttlMs)
    {s : String} (hlegal : LegalAt store calls s t) :
    Live store calls s t ↔ s = sid' ∨ s ≠ sid ∧ Live store others s t := by
  rw [Session.live_iff hpos hlegal, Session.live_iff hpos (hlegal.sublist h.sublist)]
  by_cases hnew : s = sid'
  · subst hnew
    obtain ⟨L, hlife, hlast⟩ := h.life_new store.ttlMs
    simp only [true_or, iff_true]
    intro hover
    have hle := hover L hlife
    rw [Life.deadline, hlast] at hle
    omega
  · by_cases hold : s = sid
    · subst hold
      rw [h.life_old hpos hlegal.legal]
      simp [hnew, Over.none]
    · rw [h.life_other hnew hold]
      simp [hnew, hold]

/-- The session that was rotated away is never live again. -/
theorem Rotates.dead (h : Rotates store calls others sid sid' t) (hpos : 1 ≤ store.ttlMs)
    {later : List Call} {t' : ℕ} (hlegal : LegalAt store (calls ++ later) sid t') :
    ¬ Live store (calls ++ later) sid t' := by
  have hlife : life store.ttlMs sid later = none :=
    life_none (hlegal.legal.created_once (h.created hpos hlegal.legal.left))
  rw [Session.live_iff hpos hlegal, not_not, life_append, h.life_old hpos hlegal.legal.left]
  rw [life] at hlife
  rw [hlife]
  exact Over.none

end

end

/-- Sessions live by their rolling TTL, stay dead, and are exchanged by a login. -/
theorem sessions_roll (store : SessionStore) (hpos : 1 ≤ store.ttlMs) :
    (∀ calls sid t, LegalAt store calls sid t → ∀ now,
      (store.touched calls sid now t = .ok none ∨
        ∃ data, store.touched calls sid now t = .ok (some data)) ∧
      ∀ data, store.touched calls sid now t = .ok (some data) ↔
        ∃ userId createdAt t₀, Stands calls sid userId createdAt t₀ ∧
          (t₀ :: (hits store sid calls ++ [t])).IsChain (fun a b => b < a + store.ttlMs) ∧
          data = { userId := some userId, createdAt := some createdAt, lastSeenAt := some now
                   requests := some (1 + (hits store sid calls ++ [t]).length) }) ∧
    (∀ past later sid t t', LegalAt store (past ++ later) sid t' → (∀ c ∈ past, c.time ≤ t) →
      (∀ c ∈ later, t ≤ c.time) → t ≤ t' → (∃ c ∈ past, c.op.created = some sid) →
      ¬ Live store past sid t → ¬ Live store (past ++ later) sid t') ∧
    ∀ calls others sid sid' t, Rotates store calls others sid sid' t →
      (∀ s, LegalAt store calls s t →
        (Live store calls s t ↔ s = sid' ∨ s ≠ sid ∧ Live store others s t)) ∧
      ∀ later t', LegalAt store (calls ++ later) sid t' → ¬ Live store (calls ++ later) sid t' := by
  refine ⟨?_, ?_, ?_⟩
  · intro calls sid t hlegal now
    constructor
    · rw [touched_eq hpos hlegal]
      cases Life.answer store.ttlMs t now (life store.ttlMs sid calls) with
      | none => exact Or.inl rfl
      | some data => exact Or.inr ⟨data, rfl⟩
    · intro data
      exact touched_some_iff hpos hlegal
  · intro past later sid t t' hlegal hpast hlater ht hcreated hdead
    exact dead_for_ever hpos hlegal hpast hlater ht hcreated hdead
  · intro calls others sid sid' t h
    constructor
    · intro s hlegal
      exact h.live_iff hpos hlegal
    · intro later t' hlegal
      exact h.dead hpos hlegal

/-- A session that is renewed once, and the login that exchanges it. -/
def opened : List Call := [⟨0, .create "a" "7" "09:00"⟩]

def renewed : List Call := opened ++ [⟨9, .touch "a" "09:09"⟩]

def login : List Call := renewed ++ [⟨11, .destroy "a"⟩, ⟨12, .create "b" "7" "09:12"⟩]

/-- A session is touched in time, rotated at login, and the new one is live. -/
theorem sessions_roll_login : 1 ≤ (SessionStore.mk id 10).ttlMs ∧
    LegalAt ⟨id, 10⟩ opened "a" 9 ∧
    (∃ data, SessionStore.touched ⟨id, 10⟩ opened "a" "09:09" 9 = .ok (some data)) ∧
    LegalAt ⟨id, 10⟩ login "b" 12 ∧ Rotates ⟨id, 10⟩ login renewed "a" "b" 12 ∧
    Live ⟨id, 10⟩ login "b" 12 := by
  have hpos : 1 ≤ (SessionStore.mk id 10).ttlMs := by decide
  have hopened : LegalAt ⟨id, 10⟩ opened "a" 9 := by
    refine ⟨⟨?_, ?_, ?_⟩, ?_, ?_⟩ <;> simp [opened, Op.created, Op.sid]
  have hlogin : LegalAt ⟨id, 10⟩ login "b" 12 := by
    refine ⟨⟨?_, ?_, ?_⟩, ?_, ?_⟩ <;>
      simp [login, renewed, opened, Op.created, Op.sid, SessionStore.keyFor]
  have hroll := sessions_roll ⟨id, 10⟩ hpos
  have htouched := ((hroll.1 opened "a" 9 hopened "09:09").2 _).mpr
    ⟨"7", "09:00", 0, ⟨[], [], rfl, by simp⟩, by simp [show hits ⟨id, 10⟩ "a" opened = [] from rfl],
      rfl⟩
  have hrotates : Rotates ⟨id, 10⟩ login renewed "a" "b" 12 :=
    ⟨opened, [], [], 9, "09:09", 11, .destroy "a", .create "b" "7" "09:12", ⟨"a", _⟩,
      ⟨7, .buyer, 0, 0, 0⟩, "09:12", by rw [htouched]; rfl, by rfl, rfl, rfl⟩
  exact ⟨hpos, hopened, ⟨_, htouched⟩, hlogin, hrotates,
    ((hroll.2.2 login renewed "a" "b" 12 hrotates).1 "b" hlogin).mpr (Or.inl rfl)⟩

end Marketplace.Session
