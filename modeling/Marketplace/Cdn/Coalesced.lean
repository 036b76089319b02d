import Marketplace.Cdn.Steps

/-!
# Cdn.Coalesced — one fetch per key

A fetch is outstanding until its `finally` callback has run. `inflight` holds exactly the keys
of the outstanding fetches, so a key has one at most, and every request that waits, waits for a
fetch of its key.
-/

namespace Marketplace.Cdn

open Core

variable {dbl : Doubles} {opts : EdgeOptions} {s t : St} {l : Label} {r f : ℕ} {req : Request}
  {key : String} {result : FetchResult}

/-- A fetch of this key whose `finally` callback has not run. -/
def Outstanding (s : St) (f : ℕ) (key : String) : Prop :=
  ∃ result, s.fetches f = some ⟨key, result, false⟩

/-- `inflight` is the outstanding fetches, and every waiting request waits for a fetch of its
key. -/
structure Fetching (s : St) : Prop where
  fresh : ∀ f, s.nextFetch ≤ f → s.fetches f = none
  inflight : ∀ key f, s.edge.inflight.get key = some f ↔ Outstanding s f key
  counts : s.edge.stats.originFetches ≤ s.edge.stats.misses
  waits : ∀ r req key f, s.requests r = .waiting req key f →
    route req = .ok key ∧ ∃ result ended, s.fetches f = some ⟨key, result, ended⟩
  clock : s.now ≤ maxTime

namespace Fetching

/-- The fetches and their map are as they were. -/
theorem same (h : Fetching s) (hf : t.fetches = s.fetches) (hnext : t.nextFetch = s.nextFetch)
    (hin : t.edge.inflight = s.edge.inflight)
    (hcounts : t.edge.stats.originFetches ≤ t.edge.stats.misses) (hnow : t.now ≤ maxTime)
    (hwaits : ∀ r req key f, t.requests r = .waiting req key f →
      s.requests r = .waiting req key f ∨
        route req = .ok key ∧ s.edge.inflight.get key = some f) : Fetching t := by
  refine ⟨?_, ?_, hcounts, ?_, hnow⟩
  · rw [hf, hnext]
    exact h.fresh
  · intro key f
    unfold Outstanding
    rw [hin, hf]
    exact h.inflight key f
  · intro r req key f hr
    rw [hf]
    rcases hwaits r req key f hr with hold | ⟨hroute, hget⟩
    · exact h.waits r req key f hold
    · obtain ⟨result, hres⟩ := (h.inflight key f).mp hget
      exact ⟨hroute, result, false, hres⟩

/-- An answer to one request leaves every waiting request waiting. -/
theorem waits_answer (r' : ℕ) (req : Request) (key : String) (f : ℕ)
    (h : Function.update s.requests r (.answered res) r' = .waiting req key f) :
    s.requests r' = .waiting req key f := by
  by_cases hr : r' = r
  · subst hr
    rw [Function.update_self] at h
    cases h
  · rwa [Function.update_of_ne hr] at h

/-- A request that arrives keeps the fetches as described: one that joins waits for a fetch under
way, one that misses begins the only fetch of its key. -/
theorem arrive (h : Fetching s) (ha : Arrival s r req t) : Fetching t := by
  cases ha with
  | refused res hroute ht =>
      subst ht
      exact h.same rfl rfl rfl h.counts h.clock fun r' req' key f hr =>
        Or.inl (waits_answer r' req' key f hr)
  | hit key entry e uses hroute hget hfresh hin hm ho hsub ht =>
      subst ht
      -- each way counts the request, and an origin fetch only with a miss
      have hcounts : e.stats.originFetches ≤ e.stats.misses := by
        rw [hm, ho]
        exact h.counts
      exact h.same rfl rfl hin hcounts h.clock fun r' req' key f hr =>
        Or.inl (waits_answer r' req' key f hr)
  | joined key f e hroute hget hin hm ho hsub ht =>
      subst ht
      have hcounts : e.stats.originFetches ≤ e.stats.misses := by
        rw [hm, ho]
        exact Nat.le_succ_of_le h.counts
      refine h.same rfl rfl hin hcounts h.clock ?_
      intro r' req' key' f' hr
      change Function.update s.requests r _ r' = _ at hr
      by_cases hrr : r' = r
      · subst hrr
        rw [Function.update_self] at hr
        cases hr
        exact Or.inr ⟨hroute, hget⟩
      · rw [Function.update_of_ne hrr] at hr
        exact Or.inl hr
  | fetched key e hroute hget hin hm ho hsub ht =>
      subst ht
      have hnone : s.fetches s.nextFetch = none := h.fresh _ (Nat.le_refl _)
      -- the new fetch has a number no other one has
      have hkeep : ∀ f x, s.fetches f = some x →
          Function.update s.fetches s.nextFetch (some ⟨key, none, false⟩) f = some x := by
        intro f x hx
        have hne : f ≠ s.nextFetch := by
          rintro rfl
          rw [hnone] at hx
          cases hx
        rw [Function.update_of_ne hne, hx]
      refine ⟨?_, ?_, ?_, ?_, h.clock⟩
      · intro f hf
        change s.nextFetch + 1 ≤ f at hf
        have hne : f ≠ s.nextFetch := by omega
        change Function.update s.fetches s.nextFetch _ f = none
        rw [Function.update_of_ne hne]
        exact h.fresh f (by omega)
      · intro key' f
        change e.inflight.get key' = some f ↔
          ∃ result, Function.update s.fetches s.nextFetch _ f = some ⟨key', result, false⟩
        rw [hin]
        by_cases hf : f = s.nextFetch
        · subst hf
          rw [Function.update_self]
          by_cases hk : key' = key
          · subst hk
            simp
          · rw [JsMap.get_set_of_ne hk]
            constructor
            · intro hold
              obtain ⟨result, hres⟩ := (h.inflight key' _).mp hold
              rw [hnone] at hres
              cases hres
            · rintro ⟨result, hres⟩
              exact absurd (congrArg Fetch.key (Option.some.inj hres)).symm hk
        · rw [Function.update_of_ne hf]
          by_cases hk : key' = key
          · subst hk
            rw [JsMap.get_set_self]
            constructor
            · intro heq
              exact absurd (Option.some.inj heq).symm hf
            · intro hout
              rw [(h.inflight key' f).mpr hout] at hget
              cases hget
          · rw [JsMap.get_set_of_ne hk]
            exact h.inflight key' f
      · change e.stats.originFetches ≤ e.stats.misses
        rw [hm, ho]
        exact Nat.succ_le_succ h.counts
      · intro r' req' key' f' hr
        change Function.update s.requests r _ r' = _ at hr
        by_cases hrr : r' = r
        · subst hrr
          rw [Function.update_self] at hr
          cases hr
          exact ⟨hroute, none, false, Function.update_self _ _ _⟩
        · rw [Function.update_of_ne hrr] at hr
          obtain ⟨hroute', result, ended, hres⟩ := h.waits r' req' key' f' hr
          exact ⟨hroute', result, ended, hkeep _ _ hres⟩

/-- A request that is resumed leaves the fetches alone. -/
theorem finish (h : Fetching s) (hf : Finish dbl s r req key result t) : Fetching t := by
  cases hf with
  | plain ht =>
      subst ht
      exact h.same rfl rfl rfl h.counts h.clock fun r' req' key f hr =>
        Or.inl (waits_answer r' req' key f hr)
  | stored obj e uses hres httl hkept hsub ht =>
      subst ht
      have hcounts : e.stats.originFetches ≤ e.stats.misses := by
        rw [hkept.misses, hkept.originFetches]
        exact h.counts
      exact h.same rfl rfl hkept.inflight hcounts h.clock fun r' req' key f hr =>
        Or.inl (waits_answer r' req' key f hr)

/-- A fetch goes on: only `inflight` has to be looked at again. -/
theorem advance {old new : Option FetchResult} {was is : Bool} {e : Edge} (h : Fetching s)
    (hf : s.fetches f = some ⟨key, old, was⟩) (hstats : e.stats = s.edge.stats)
    (hin : ∀ key' g, e.inflight.get key' = some g ↔
      ∃ res, Function.update s.fetches f (some ⟨key, new, is⟩) g = some ⟨key', res, false⟩) :
    Fetching
      { s with edge := e, fetches := Function.update s.fetches f (some ⟨key, new, is⟩) } := by
  refine ⟨?_, hin, ?_, ?_, h.clock⟩
  · intro g hg
    have hne : g ≠ f := by
      rintro rfl
      rw [h.fresh _ hg] at hf
      cases hf
    change Function.update s.fetches f _ g = none
    rw [Function.update_of_ne hne]
    exact h.fresh g hg
  · change e.stats.originFetches ≤ e.stats.misses
    rw [hstats]
    exact h.counts
  · intro r' req' key' g hr
    obtain ⟨hroute, res, ended, hg⟩ := h.waits r' req' key' g hr
    refine ⟨hroute, ?_⟩
    change ∃ r' e', Function.update s.fetches f _ g = some ⟨key', r', e'⟩
    by_cases hgf : g = f
    · subst hgf
      rw [hf] at hg
      cases hg
      exact ⟨_, _, Function.update_self _ _ _⟩
    · rw [Function.update_of_ne hgf]
      exact ⟨res, ended, hg⟩

/-- Every step keeps the fetches as described: at most one under way for each key, and none
without a miss. -/
theorem step (h : Fetching s) (hs : Step dbl s l t) : Fetching t := by
  cases hs with
  | request hfresh ha => exact h.arrive ha
  | resume hr hf hfin => exact h.finish hfin
  | tick hle => exact ⟨h.fresh, h.inflight, h.counts, h.waits, hle⟩
  | @settle f key result hf =>
      refine h.advance hf rfl ?_
      intro key' g
      rw [h.inflight key' g]
      unfold Outstanding
      by_cases hg : g = f
      · subst hg
        rw [Function.update_self, hf]
        simp
      · rw [Function.update_of_ne hg]
  -- the fetch that ends was the one in the table, so its key is free again
  | @ended f key result hf =>
      have hout : s.edge.inflight.get key = some f := (h.inflight key f).mpr ⟨_, hf⟩
      refine h.advance hf rfl ?_
      intro key' g
      change (s.edge.inflight.delete key).get key' = some g ↔ _
      by_cases hk : key' = key
      · subst hk
        rw [JsMap.get_delete_self]
        constructor
        · intro hnone
          cases hnone
        · rintro ⟨res, hres⟩
          by_cases hg : g = f
          · subst hg
            rw [Function.update_self] at hres
            cases hres
          · -- `inflight` names one fetch of the key
            rw [Function.update_of_ne hg] at hres
            rw [(h.inflight key' g).mpr ⟨res, hres⟩] at hout
            exact absurd (Option.some.inj hout) hg
      · rw [JsMap.get_delete_of_ne hk, h.inflight key' g]
        unfold Outstanding
        by_cases hg : g = f
        · subst hg
          rw [Function.update_self, hf]
          constructor
          · rintro ⟨res, hres⟩
            exact absurd (congrArg Fetch.key (Option.some.inj hres)).symm hk
          · rintro ⟨res, hres⟩
            cases hres
        · rw [Function.update_of_ne hg]

/-- At the start there is no fetch. -/
theorem init (h : (machine dbl opts).Init s) : Fetching s := by
  obtain ⟨hnow, hedge, hf, -, hr, -, -⟩ := h
  refine ⟨fun f _ => hf f, ?_, ?_, ?_, hnow⟩
  · intro key f
    unfold Outstanding
    rw [hedge, hf f]
    constructor
    · intro hget
      cases hget
    · rintro ⟨res, hres⟩
      cases hres
  · rw [hedge]
    exact Nat.le_refl 0
  · intro r req key f hw
    rw [hr r] at hw
    cases hw

end Fetching

/-- Both invariants of a reachable state. -/
structure Sound (opts : EdgeOptions) (s : St) : Prop where
  within : Within opts s
  fetching : Fetching s

theorem Sound.next (h : Sound opts s) (hn : (machine dbl opts).next s l = some t) :
    Sound opts t :=
  ⟨(h.within.next hn).1, h.fetching.step (step_cases h.within hn)⟩

theorem Sound.init (h : (machine dbl opts).Init s) : Sound opts s :=
  ⟨Within.init h, Fetching.init h⟩

theorem Sound.run {ok : St → Label → Prop} {as : List Label} (h : Sound opts s)
    (hr : (machine dbl opts).Run ok s as t) : Sound opts t :=
  hr.invariant (P := Sound opts) (fun _ _ _ _ hn hP => hP.next hn) h

end Marketplace.Cdn
