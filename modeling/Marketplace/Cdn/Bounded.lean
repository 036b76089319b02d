import Marketplace.Cdn.Edge
import Marketplace.Core.Recency

/-!
# Cdn.Bounded — the cache within its budget

Between two steps of the event loop the byte counter is the sum of the cached bodies and
within the budget, no body is over the limit of one object, and the map lists the least
recently used key first. `store` keeps the entry it stores, gives up the shortest prefix
that is enough, and ends.

The loop is measured against `Recency.shrink`: one round takes one entry off the front, and
the counter says what is left (`evict_shrink`).
-/

namespace Marketplace.Cdn

open Core Recency

variable {opts : EdgeOptions} {e : Edge} {key : String} {entry : Entry} {uses : List String}

/-! ## Limits -/

/-- More cached bytes are more bytes also as the code counts them. -/
theorem bytes_le {m n : ℤ} (h : m ≤ n) : bytes m ≤ bytes n := by
  unfold bytes
  rw [WithBot.coe_le_coe, WithTop.coe_le_coe]
  exact_mod_cast h

theorem not_exceeds_iff {n : ℤ} : ¬ opts.exceeds n ↔ bytes n ≤ opts.budget := not_lt

/-- An empty cache is within its budget. -/
theorem not_exceeds_zero : ¬ opts.exceeds 0 := by
  rw [not_exceeds_iff]
  unfold EdgeOptions.budget
  cases h : opts.maxBytes with
  | none => exact bytes_le (by decide)
  | some m => exact opts.maxBytes_nonneg m h

theorem not_exceeds_of_small {n : ℤ} (h : bytes n ≤ opts.perObject) : ¬ opts.exceeds n :=
  not_exceeds_iff.mpr (h.trans (min_le_right _ _))

/-! ## The byte counter -/

def pairSize (p : String × Entry) : ℤ := p.2.size

/-- The counter is the sum of the cached bodies. -/
def Edge.Counted (e : Edge) : Prop := e.stats.cachedBytes = total pairSize e.cache.entries

/-- Dropping an entry takes its size off the total, since no key is there twice. -/
theorem total_filter {l : List (String × Entry)} (hnodup : (l.map Prod.fst).Nodup)
    (h : (key, entry) ∈ l) :
    total pairSize (l.filter fun p => p.1 ≠ key) = total pairSize l - entry.size := by
  induction l with
  | nil => cases h
  | cons p l ih =>
      rw [List.map_cons, List.nodup_cons] at hnodup
      obtain ⟨hp, hl⟩ := hnodup
      rcases List.mem_cons.mp h with rfl | h
      · rw [List.filter_cons_of_neg (by simp), JsMap.filter_of_notMem hp, total_cons]
        change _ = entry.size + _ - entry.size
        omega
      · have hne : p.1 ≠ key := fun heq => hp (heq ▸ List.mem_map_of_mem (f := Prod.fst) h)
        rw [List.filter_cons_of_pos (by simpa using hne), total_cons, total_cons, ih hl h]
        omega

namespace Edge

/-- Dropping a key filters its entry out and keeps the order of the others. -/
theorem drop_entries : (e.drop key).cache.entries = e.cache.entries.filter fun p => p.1 ≠ key := by
  unfold drop
  cases h : e.cache.get key with
  | none =>
      have hnot := JsMap.get_eq_none_iff.mp h
      exact (JsMap.delete_of_notMem hnot).symm
  | some entry => rfl

/-- A dropped key is gone. -/
theorem notMem_keys_drop : key ∉ (e.drop key).cache.keys := by
  unfold JsMap.keys
  rw [drop_entries]
  simp

/-- What `drop` and `store` leave alone. -/
structure Kept (e e' : Edge) : Prop where
  inflight : e'.inflight = e.inflight
  hits : e'.stats.hits = e.stats.hits
  misses : e'.stats.misses = e.stats.misses
  originFetches : e'.stats.originFetches = e.stats.originFetches

theorem Kept.refl (e : Edge) : Kept e e := ⟨rfl, rfl, rfl, rfl⟩

theorem Kept.trans {e₁ e₂ e₃ : Edge} (h : Kept e₁ e₂) (h' : Kept e₂ e₃) : Kept e₁ e₃ :=
  ⟨h'.inflight.trans h.inflight, h'.hits.trans h.hits, h'.misses.trans h.misses,
    h'.originFetches.trans h.originFetches⟩

/-- A drop touches the cache and its size, and none of the other counters. -/
theorem kept_drop : Kept e (e.drop key) := by
  unfold drop
  split
  · exact Kept.refl e
  · constructor <;> rfl

/-- After a drop the counted bytes are again the sizes of what is there. -/
theorem Counted.drop (h : e.Counted) : (e.drop key).Counted := by
  unfold Edge.drop Counted
  cases hg : e.cache.get key with
  | none => exact h
  | some entry =>
      change e.stats.cachedBytes - entry.size = total pairSize (e.cache.entries.filter _)
      rw [total_filter e.cache.nodup (JsMap.get_eq_some_iff.mp hg), h]

/-! ## One round of the loop -/

/-- An eviction takes the least recently used entry, the first one. -/
theorem evictOne_entries : e.evictOne.cache.entries = e.cache.entries.tail := by
  unfold evictOne JsMap.firstKey JsMap.keys
  cases hl : e.cache.entries with
  | nil => exact hl
  | cons p rest =>
      have hnodup := e.cache.nodup
      rw [hl, List.map_cons, List.nodup_cons] at hnodup
      change (e.drop p.1).cache.entries = rest
      rw [drop_entries, hl, List.filter_cons_of_neg (by simp), JsMap.filter_of_notMem hnodup.1]

/-- An eviction touches the cache, its size and the count of evictions only. -/
theorem kept_evictOne : Kept e e.evictOne := by
  unfold evictOne
  cases e.cache.firstKey with
  | none => constructor <;> rfl
  | some key =>
      obtain ⟨hin, hh, hm, ho⟩ := kept_drop (e := e)
      exact ⟨hin, hh, hm, ho⟩

/-- After an eviction the counted bytes are again the sizes of what is there. -/
theorem Counted.evictOne (h : e.Counted) : e.evictOne.Counted := by
  unfold Edge.evictOne
  cases e.cache.firstKey with
  | none => exact h
  | some key => exact h.drop

/-! ## The loop -/

/-- The loop is `shrink`. -/
theorem evict_shrink (h : e.Counted) {n : ℕ} (hn : e.cache.entries.length < n) :
    ∃ e', e.evict opts n = some e' ∧ e'.Counted ∧ Kept e e' ∧
      e'.cache.entries = shrink pairSize opts.exceeds e.cache.entries := by
  -- on the fuel: an eviction makes the cache shorter by one entry
  induction n generalizing e with
  | zero => omega
  | succ n ih =>
      rw [evict]
      split
      · next hexceeds =>
          have hlt : e.evictOne.cache.entries.length < n := by
            rw [evictOne_entries, List.length_tail]
            cases hl : e.cache.entries with
            | nil =>
                rw [h, hl] at hexceeds
                exact absurd hexceeds not_exceeds_zero
            | cons p rest =>
                rw [hl, List.length_cons] at hn
                rw [List.length_cons]
                omega
          obtain ⟨e', hev, hc, hkept, hent⟩ := ih h.evictOne hlt
          refine ⟨e', hev, hc, kept_evictOne.trans hkept, ?_⟩
          rw [hent, evictOne_entries]
          cases hl : e.cache.entries with
          | nil => rfl
          | cons p rest =>
              rw [h, hl] at hexceeds
              rw [shrink, if_pos hexceeds]
              rfl
      · next hexceeds =>
          refine ⟨e, rfl, h, Kept.refl e, ?_⟩
          cases hl : e.cache.entries with
          | nil => rfl
          | cons p rest =>
              rw [h, hl] at hexceeds
              rw [shrink, if_neg hexceeds]

/-! ## Storing -/

/-- The new entry goes to the end. -/
theorem put_entries : (e.put key entry).cache.entries =
    e.cache.entries.filter (fun p => p.1 ≠ key) ++ [(key, entry)] := by
  change ((e.drop key).cache.set key entry).entries = _
  rw [JsMap.set_entries notMem_keys_drop, drop_entries]

/-- After a put the counted bytes are again the sizes of what is there. -/
theorem Counted.put (h : e.Counted) : (e.put key entry).Counted := by
  have hdrop : (e.drop key).Counted := h.drop
  change (e.drop key).stats.cachedBytes + entry.size = total pairSize (e.put key entry).cache.entries
  rw [put_entries, ← drop_entries, total_concat, hdrop]
  rfl

theorem kept_put : Kept e (e.put key entry) := by
  obtain ⟨hin, hh, hm, ho⟩ := kept_drop (e := e)
  exact ⟨hin, hh, hm, ho⟩

/-- What `store` makes of the entries: the new one is last and stays, and as few of the oldest
as is enough are gone. -/
def Stored (opts : EdgeOptions) (key : String) (entry : Entry) (e e' : Edge) : Prop :=
  (key, entry) ∈ e'.cache.entries ∧
    Shortest pairSize opts.exceeds (e.cache.entries.filter (fun p => p.1 ≠ key) ++ [(key, entry)])
      e'.cache.entries

/-- Storing an entry that is not too large for the cache always ends, with the entry last and the
shortest prefix evicted that makes room. -/
theorem store_spec (h : e.Counted) (hsmall : bytes entry.size ≤ opts.perObject) :
    ∃ e', e.store opts key entry = some e' ∧ e'.Counted ∧ Kept e e' ∧
      Stored opts key entry e e' := by
  have hlt : (e.put key entry).cache.entries.length <
      (e.put key entry).cache.entries.length + 1 := Nat.lt_succ_self _
  obtain ⟨e', hev, hc, hkept, hent⟩ := evict_shrink h.put hlt
  rw [put_entries] at hent
  refine ⟨e', hev, hc, kept_put.trans hkept, ?_, ?_⟩
  · have hfits : ¬ opts.exceeds (pairSize (key, entry)) := not_exceeds_of_small hsmall
    obtain ⟨r, hr⟩ := shrink_concat (l := e.cache.entries.filter fun p => p.1 ≠ key) hfits
    rw [hent, hr]
    exact List.mem_append_right _ (List.mem_singleton.mpr rfl)
  · rw [hent]
    exact shrink_shortest not_exceeds_zero

end Edge

/-! ## The invariant -/

/-- The cache between two steps of the event loop. -/
structure Bounded (opts : EdgeOptions) (e : Edge) (uses : List String) : Prop where
  counted : e.Counted
  within : ¬ opts.exceeds e.stats.cachedBytes
  small : ∀ p ∈ e.cache.entries, bytes p.2.size ≤ opts.perObject
  ordered : e.cache.keys.Sublist uses.dedup

namespace Bounded

/-- The other counters and the map of fetches do not matter. -/
theorem same {e' : Edge} (h : Bounded opts e uses) (hcache : e'.cache = e.cache)
    (hbytes : e'.stats.cachedBytes = e.stats.cachedBytes) : Bounded opts e' uses := by
  obtain ⟨hc, hw, hs, ho⟩ := h
  refine ⟨?_, ?_, hcache ▸ hs, hcache ▸ ho⟩
  · unfold Edge.Counted
    rw [hbytes, hcache]
    exact hc
  · rw [hbytes]
    exact hw

/-- Dropping an entry keeps the bound, and the order of use of the others. -/
theorem drop (h : Bounded opts e uses) : Bounded opts (e.drop key) uses := by
  have hsub : (e.drop key).cache.entries.Sublist e.cache.entries := by
    rw [Edge.drop_entries]
    exact List.filter_sublist
  refine ⟨h.counted.drop, ?_, fun p hp => h.small p (hsub.subset hp), ?_⟩
  · have hle : (e.drop key).stats.cachedBytes ≤ e.stats.cachedBytes := by
      unfold Edge.drop
      cases e.cache.get key with
      | none => exact Int.le_refl _
      | some entry => exact Int.sub_le_self _ (Int.natCast_nonneg _)
    rw [not_exceeds_iff]
    exact (bytes_le hle).trans (not_exceeds_iff.mp h.within)
  · exact (hsub.map Prod.fst).trans h.ordered

/-- `store` keeps the invariant. -/
theorem store (h : Bounded opts e uses) (hsmall : bytes entry.size ≤ opts.perObject) :
    ∃ e', e.store opts key entry = some e' ∧ Bounded opts e' (uses ++ [key]) ∧
      Edge.Kept e e' ∧ Edge.Stored opts key entry e e' := by
  obtain ⟨e', hst, hc, hkept, hmem, hshort⟩ := Edge.store_spec h.counted hsmall
  refine ⟨e', hst, ⟨hc, ?_, ?_, ?_⟩, hkept, hmem, hshort⟩
  · rw [hc]
    exact hshort.fits
  · intro p hp
    rcases List.mem_append.mp (hshort.sublist.subset hp) with hp | hp
    · exact h.small p (List.mem_filter.mp hp).1
    · rw [List.mem_singleton.mp hp]
      exact hsmall
  · have hkeys : (e.cache.entries.filter (fun p => p.1 ≠ key) ++ [(key, entry)]).map Prod.fst =
        e.cache.keys.filter (· ≠ key) ++ [key] := by
      rw [List.map_append, JsMap.keys, List.filter_map]
      rfl
    have hsub := hshort.sublist.map Prod.fst
    rw [hkeys] at hsub
    exact hsub.trans (sublist_use h.ordered)

end Bounded

/-! ## Steps of the event loop -/

/-- The eviction loop has always ended, and the cache keeps its invariant. -/
structure Within (opts : EdgeOptions) (s : St) : Prop where
  running : s.hung = false
  bounded : Bounded opts s.edge s.uses

/-- A step leaves the cache alone but for an entry that has expired, or stores one entry. -/
inductive CacheStep (opts : EdgeOptions) (s t : St) : Prop
  | still : t.uses = s.uses → t.edge.cache.entries.Sublist s.edge.cache.entries →
      CacheStep opts s t
  | stored (key : String) (entry : Entry) : bytes entry.size ≤ opts.perObject →
      t.uses = s.uses ++ [key] → Edge.Stored opts key entry s.edge t.edge → CacheStep opts s t

namespace Within

variable {dbl : Doubles} {s t : St} {l : Label} {r : ℕ} {req : Request} {xCache : XCache}

theorem answer {res : Response} (h : Within opts s) : Within opts (s.answer r res) :=
  ⟨h.running, h.bounded⟩

/-- `store` ends, and `send` answers. -/
theorem storeAndSend_eq (h : Within opts s) (hsmall : bytes entry.size ≤ opts.perObject) :
    ∃ e', s.storeAndSend opts r req key entry xCache =
        St.answer r ((send req entry.obj xCache).getD badGateway)
          { s with edge := e', uses := s.uses ++ [key] } ∧
      Bounded opts e' (s.uses ++ [key]) ∧ Edge.Kept s.edge e' ∧
      Edge.Stored opts key entry s.edge e' := by
  obtain ⟨e', hst, hrest⟩ := h.bounded.store hsmall
  refine ⟨e', ?_, hrest⟩
  unfold St.storeAndSend
  rw [hst]

/-- Storing an object on the way to the client keeps the bound, and the cache changes as `Stored`
says. -/
theorem storeAndSend (h : Within opts s) (hsmall : bytes entry.size ≤ opts.perObject) :
    Within opts (s.storeAndSend opts r req key entry xCache) ∧
      CacheStep opts s (s.storeAndSend opts r req key entry xCache) := by
  obtain ⟨e', heq, hb, -, hstored⟩ :=
    h.storeAndSend_eq (r := r) hsmall
  rw [heq]
  exact ⟨⟨h.running, hb⟩, .stored key entry hsmall rfl hstored⟩

/-- A miss counts itself and leaves the cache alone. -/
theorem miss (h : Within opts s) : Within opts (s.miss r req key) ∧
    (s.miss r req key).uses = s.uses ∧ (s.miss r req key).edge.cache = s.edge.cache := by
  unfold St.miss
  dsimp only
  split
  · exact ⟨⟨h.running, h.bounded.same rfl rfl⟩, rfl, rfl⟩
  · exact ⟨⟨h.running, h.bounded.same rfl rfl⟩, rfl, rfl⟩

/-- Handling a request keeps the bound: a hit moves its entry to the end, an expired entry goes,
and anything else leaves the cache alone. -/
theorem handle (h : Within opts s) : Within opts (s.handle opts r req) ∧
    CacheStep opts s (s.handle opts r req) := by
  unfold St.handle
  cases route req with
  | error res => exact ⟨h.answer, .still rfl (List.Sublist.refl _)⟩
  | ok key =>
      dsimp only
      cases hg : s.edge.cache.get key with
      | none =>
          obtain ⟨hmiss, hu, hcache⟩ := h.miss (r := r)
          exact ⟨hmiss, .still hu (hcache ▸ List.Sublist.refl _)⟩
      | some cached =>
          dsimp only
          split
          · -- a HIT moves an entry that is there, so it is small enough
            have hsmall := h.bounded.small _ (JsMap.get_eq_some_iff.mp hg)
            have hcount : Within opts
                { s with edge := s.edge.count fun stats => { stats with hits := stats.hits + 1 } } :=
              ⟨h.running, h.bounded.same rfl rfl⟩
            obtain ⟨hw, hstep⟩ := hcount.storeAndSend (r := r)
              hsmall
            refine ⟨hw, ?_⟩
            cases hstep with
            | still hu hsub => exact .still hu hsub
            | stored key entry hsmall hu hstored => exact .stored key entry hsmall hu hstored
          · have hdrop : Within opts { s with edge := s.edge.drop key } :=
              ⟨h.running, h.bounded.drop⟩
            obtain ⟨hmiss, hu, hcache⟩ := hdrop.miss (r := r)
            refine ⟨hmiss, .still hu ?_⟩
            rw [hcache, Edge.drop_entries]
            exact List.filter_sublist

/-- A request that is resumed keeps the bound; it stores at most the object that was fetched. -/
theorem finish {result : FetchResult} (h : Within opts s) :
    Within opts (s.finish dbl opts r req key result) ∧
      CacheStep opts s (s.finish dbl opts r req key result) := by
  unfold St.finish
  cases result with
  | failed => exact ⟨h.answer, .still rfl (List.Sublist.refl _)⟩
  | nothing => exact ⟨h.answer, .still rfl (List.Sublist.refl _)⟩
  | object obj =>
      dsimp only
      split
      · next hlim => exact h.storeAndSend hlim.2
      · exact ⟨h.answer, .still rfl (List.Sublist.refl _)⟩

/-- Every step keeps the bound, and changes the cache in one of the ways of `CacheStep`. -/
theorem next (h : Within opts s) (hn : (machine dbl opts).next s l = some t) :
    Within opts t ∧ CacheStep opts s t := by
  change St.next dbl opts s l = some t at hn
  unfold St.next at hn
  rw [if_neg (by simp [h.running])] at hn
  -- only a request and its resumption touch the cache
  cases l with
  | request r req =>
      dsimp only at hn
      split at hn
      · obtain rfl := Option.some.inj hn
        exact h.handle
      · cases hn
  | settle f result =>
      dsimp only at hn
      split at hn
      · obtain rfl := Option.some.inj hn
        exact ⟨⟨h.running, h.bounded⟩, .still rfl (List.Sublist.refl _)⟩
      · cases hn
  | ended f =>
      dsimp only at hn
      split at hn
      · obtain rfl := Option.some.inj hn
        exact ⟨⟨h.running, h.bounded.same rfl rfl⟩, .still rfl (List.Sublist.refl _)⟩
      · cases hn
  | resume r =>
      dsimp only at hn
      split at hn
      · split at hn
        · obtain rfl := Option.some.inj hn
          exact h.finish
        · cases hn
      · cases hn
  | tick now =>
      dsimp only at hn
      split at hn
      · obtain rfl := Option.some.inj hn
        exact ⟨⟨h.running, h.bounded⟩, .still rfl (List.Sublist.refl _)⟩
      · cases hn

/-- At the start the cache is empty. -/
theorem init (h : (machine dbl opts).Init s) : Within opts s := by
  obtain ⟨-, hedge, -, -, -, huses, hhung⟩ := h
  refine ⟨hhung, ?_⟩
  rw [hedge, huses]
  refine ⟨rfl, not_exceeds_zero, fun p hp => ?_, List.Sublist.refl _⟩
  cases hp

theorem reachable (h : (machine dbl opts).Reachable s) : Within opts s :=
  h.invariant (P := Within opts) (fun _ => init) fun _ _ _ hn hP => (hP.next hn).1

end Within

/-- In every reachable state the byte counter is the sum of the cached bodies, within the
budget; no cached body is over the limit of one object; the map is in the order of last uses;
no eviction loop has hung. `store` ends, keeps the entry it stores, and gives up the shortest
prefix that is enough, and every step leaves the cache to `store` and to expiry. -/
theorem edge_bounded {dbl : Doubles} {s : St} (h : (machine dbl opts).Reachable s) :
    s.edge.stats.cachedBytes = total pairSize s.edge.cache.entries ∧
    bytes s.edge.stats.cachedBytes ≤ opts.budget ∧
    (∀ p ∈ s.edge.cache.entries, bytes p.2.size ≤ opts.perObject) ∧
    s.edge.cache.keys.Sublist s.uses.dedup ∧
    s.hung = false ∧
    (∀ key entry, bytes entry.size ≤ opts.perObject →
      ∃ e', s.edge.store opts key entry = some e' ∧ Edge.Stored opts key entry s.edge e') ∧
    ∀ l t, (machine dbl opts).next s l = some t → CacheStep opts s t := by
  have hw := Within.reachable h
  refine ⟨hw.bounded.counted, not_exceeds_iff.mp hw.bounded.within, hw.bounded.small,
    hw.bounded.ordered, hw.running, ?_, fun l t hn => (hw.next hn).2⟩
  intro key entry hsmall
  obtain ⟨e', hst, -, -, hstored⟩ := hw.bounded.store hsmall
  exact ⟨e', hst, hstored⟩

/-! ## Two assets and room for one -/

def emptyEdge : St where
  now := 1000
  edge := createEdge
  fetches _ := none
  nextFetch := 0
  requests _ := .fresh
  uses := []
  hung := false

theorem emptyEdge_init (dbl : Doubles) (opts : EdgeOptions) : (machine dbl opts).Init emptyEdge :=
  ⟨by decide, rfl, fun _ => rfl, rfl, fun _ => rfl, rfl, rfl⟩

def fiveBytes : EdgeOptions where
  maxBytes := some (bytes 5)
  maxObjectBytes := none
  maxBytes_nonneg m hm := Option.some.inj hm ▸ bytes_le (by decide)

def asset (body : List UInt8) : StoredObject :=
  ⟨body, some "text/css", some "public, max-age=60", some "\"x\""⟩

/-- Request `r` of a new key, which the origin answers with fetch `r`. -/
def firstVisit (r : ℕ) (url : String) (body : List UInt8) : List Label :=
  [.request r ⟨"GET", url, none⟩, .settle r (.object (asset body)), .ended r, .resume r]

/-- With a budget of five bytes the second file evicts the first. -/
theorem edge_bounded_evicts : ∃ s,
    (machine .unrounded fiveBytes).exec (fun _ _ => true) emptyEdge
      (firstVisit 0 "/assets/a.css" [1, 2, 3] ++ firstVisit 1 "/assets/b.css" [4, 5, 6, 7]) =
        some s ∧
    s.edge.cache.keys = ["assets/b.css"] ∧ s.edge.stats.evictions = 1 ∧
    s.edge.stats.cachedBytes = total pairSize s.edge.cache.entries ∧
    bytes s.edge.stats.cachedBytes ≤ fiveBytes.budget := by
  have hrun : ((machine .unrounded fiveBytes).exec (fun _ _ => true) emptyEdge
      (firstVisit 0 "/assets/a.css" [1, 2, 3] ++ firstVisit 1 "/assets/b.css" [4, 5, 6, 7])).map
        (fun s => (s.edge.cache.keys, s.edge.stats.evictions)) = some (["assets/b.css"], 1) := by
    decide +kernel
  rw [Option.map_eq_some_iff] at hrun
  obtain ⟨s, hexec, hend⟩ := hrun
  have hreach : (machine .unrounded fiveBytes).Reachable s :=
    ⟨emptyEdge, _, emptyEdge_init _ _, Machine.exec_always hexec⟩
  obtain ⟨hsum, hbudget, -⟩ := edge_bounded hreach
  have hkeys := congrArg Prod.fst hend
  have hevictions := congrArg Prod.snd hend
  exact ⟨s, hexec, hkeys, hevictions, hsum, hbudget⟩

end Marketplace.Cdn
