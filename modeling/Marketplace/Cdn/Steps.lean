import Marketplace.Cdn.Bounded

/-!
# Cdn.Steps — what a step of the event loop does

`Arrival` and `Finish` say once what the two halves of the handler do, before and after its
`await`; `Step` is every step. What later modules prove is read off them.
-/

namespace Marketplace.Cdn

open Core

variable {dbl : Doubles} {opts : EdgeOptions} {s t : St} {l : Label} {r : ℕ} {req : Request}
  {key : String} {result : FetchResult}

/-- The cache lost entries at most. -/
def Edge.Shrunk (e e' : Edge) : Prop := ∀ p ∈ e'.cache.entries, p ∈ e.cache.entries

/-- A request arrives. -/
inductive Arrival (s : St) (r : ℕ) (req : Request) (t : St) : Prop
  | refused (res : Response) : route req = .error res → t = s.answer r res → Arrival s r req t
  | hit (key : String) (entry : Entry) (e : Edge) (uses : List String) :
      route req = .ok key → s.edge.cache.get key = some entry →
      ((s.now : ℚ) : WithTop ℚ) < entry.expiresAt →
      e.inflight = s.edge.inflight → e.stats.misses = s.edge.stats.misses →
      e.stats.originFetches = s.edge.stats.originFetches → s.edge.Shrunk e →
      t = St.answer r ((send req entry.obj .hit).getD badGateway) { s with edge := e, uses } →
      Arrival s r req t
  | joined (key : String) (f : ℕ) (e : Edge) :
      route req = .ok key → s.edge.inflight.get key = some f → e.inflight = s.edge.inflight →
      e.stats.misses = s.edge.stats.misses + 1 →
      e.stats.originFetches = s.edge.stats.originFetches → s.edge.Shrunk e →
      t = { s with edge := e, requests := Function.update s.requests r (.waiting req key f) } →
      Arrival s r req t
  | fetched (key : String) (e : Edge) :
      route req = .ok key → s.edge.inflight.get key = none →
      e.inflight = s.edge.inflight.set key s.nextFetch →
      e.stats.misses = s.edge.stats.misses + 1 →
      e.stats.originFetches = s.edge.stats.originFetches + 1 → s.edge.Shrunk e →
      t = { s with
        edge := e
        fetches := Function.update s.fetches s.nextFetch (some ⟨key, none, false⟩)
        nextFetch := s.nextFetch + 1
        requests := Function.update s.requests r (.waiting req key s.nextFetch) } →
      Arrival s r req t

/-- A miss, on a state that differs from `s` in an entry that has expired. -/
theorem Arrival.of_miss {e : Edge} (hroute : route req = .ok key) (hkept : Edge.Kept s.edge e)
    (hsub : s.edge.Shrunk e) : Arrival s r req (St.miss r req key { s with edge := e }) := by
  obtain ⟨hin, -, hm, ho⟩ := hkept
  unfold St.miss
  dsimp only
  split
  · next f hf =>
      have hget : s.edge.inflight.get key = some f := by
        rw [← hin]
        exact hf
      refine .joined key f _ hroute hget ?_ ?_ ?_ ?_ rfl
      · exact hin
      · exact congrArg (· + 1) hm
      · exact ho
      · exact hsub
  · next hf =>
      have hget : s.edge.inflight.get key = none := by
        rw [← hin]
        exact hf
      refine .fetched key _ hroute hget ?_ ?_ ?_ ?_ rfl
      · exact congrArg (fun m => m.set key s.nextFetch) hin
      · exact congrArg (· + 1) hm
      · exact congrArg (· + 1) ho
      · exact hsub

/-- What `handle` does with a request is one of the four ways of `Arrival`. -/
theorem arrival (hw : Within opts s) : Arrival s r req (s.handle opts r req) := by
  unfold St.handle
  cases hroute : route req with
  | error res => exact .refused res hroute rfl
  | ok key =>
      dsimp only
      cases hg : s.edge.cache.get key with
      | none => exact .of_miss hroute (Edge.Kept.refl _) fun _ => id
      | some entry =>
          dsimp only
          split
          · next hfresh =>
              have hmem := JsMap.get_eq_some_iff.mp hg
              have hcount : Within opts
                  { s with edge := s.edge.count fun c => { c with hits := c.hits + 1 } } :=
                ⟨hw.running, hw.bounded.same rfl rfl⟩
              obtain ⟨e, heq, -, ⟨hin, -, hm, ho⟩, -, hshort⟩ :=
                hcount.storeAndSend_eq (r := r)
                  (hw.bounded.small _ hmem)
              refine .hit key entry e _ hroute hg hfresh hin hm ho ?_ heq
              -- the entry that is moved was there before
              intro p hp
              rcases List.mem_append.mp (hshort.sublist.subset hp) with hp | hp
              · exact (List.mem_filter.mp hp).1
              · rw [List.mem_singleton.mp hp]
                exact hmem
          · refine .of_miss hroute Edge.kept_drop ?_
            intro p hp
            rw [Edge.drop_entries] at hp
            exact (List.mem_filter.mp hp).1

/-- What a waiting request is answered once its fetch has settled. -/
def reply (req : Request) : FetchResult → Response
  | .failed => badGateway
  | .nothing => ⟨404, [("x-cache", "MISS")], none⟩
  | .object obj => (send req obj .miss).getD badGateway

/-- A waiting request goes on. -/
inductive Finish (dbl : Doubles) (s : St) (r : ℕ) (req : Request) (key : String)
    (result : FetchResult) (t : St) : Prop
  | plain : t = s.answer r (reply req result) → Finish dbl s r req key result t
  | stored (obj : StoredObject) (e : Edge) (uses : List String) :
      result = .object obj → 0 < cacheableSeconds dbl obj.cacheControl → Edge.Kept s.edge e →
      (∀ p ∈ e.cache.entries, p ∈ s.edge.cache.entries ∨
        p = (key, ⟨obj, expiry dbl s.now (cacheableSeconds dbl obj.cacheControl)⟩)) →
      t = St.answer r (reply req result) { s with edge := e, uses } →
      Finish dbl s r req key result t

/-- What `finish` does with a request is one of the two ways of `Finish`. -/
theorem finish_spec (hw : Within opts s) :
    Finish dbl s r req key result (s.finish dbl opts r req key result) := by
  unfold St.finish
  cases result with
  | failed => exact .plain rfl
  | nothing => exact .plain rfl
  | object obj =>
      dsimp only
      split
      · next hlim =>
          obtain ⟨httl, hsmall⟩ := hlim
          have hsize : bytes (Entry.size
              ⟨obj, expiry dbl s.now (cacheableSeconds dbl obj.cacheControl)⟩) ≤ opts.perObject :=
            hsmall
          obtain ⟨e, heq, -, hkept, -, hshort⟩ :=
            hw.storeAndSend_eq (r := r) hsize
          refine .stored obj e _ rfl httl hkept ?_ heq
          intro p hp
          rcases List.mem_append.mp (hshort.sublist.subset hp) with hp | hp
          · exact Or.inl (List.mem_filter.mp hp).1
          · exact Or.inr (List.mem_singleton.mp hp)
      · exact .plain rfl

/-- A step of the event loop. -/
inductive Step (dbl : Doubles) (s : St) : Label → St → Prop
  | request {r : ℕ} {req : Request} {t : St} : s.requests r = .fresh → Arrival s r req t →
      Step dbl s (.request r req) t
  | settle {f : ℕ} {key : String} {result : FetchResult} :
      s.fetches f = some ⟨key, none, false⟩ →
      Step dbl s (.settle f result)
        { s with fetches := Function.update s.fetches f (some ⟨key, some result, false⟩) }
  | ended {f : ℕ} {key : String} {result : FetchResult} :
      s.fetches f = some ⟨key, some result, false⟩ →
      Step dbl s (.ended f)
        { s with
          edge := { s.edge with inflight := s.edge.inflight.delete key }
          fetches := Function.update s.fetches f (some ⟨key, some result, true⟩) }
  | resume {r f : ℕ} {req : Request} {key key' : String} {result : FetchResult} {t : St} :
      s.requests r = .waiting req key f → s.fetches f = some ⟨key', some result, true⟩ →
      Finish dbl s r req key result t → Step dbl s (.resume r) t
  | tick {now : ℕ} : now ≤ maxTime → Step dbl s (.tick now) { s with now }

/-- Every step of the machine is one of the constructors of `Step`: later proofs split these and
unfold nothing. -/
theorem step_cases (hw : Within opts s) (hn : (machine dbl opts).next s l = some t) :
    Step dbl s l t := by
  change St.next dbl opts s l = some t at hn
  unfold St.next at hn
  rw [if_neg (by simp [hw.running])] at hn
  cases l with
  | request r req =>
      dsimp only at hn
      split at hn
      · next hfresh =>
          obtain rfl := Option.some.inj hn
          exact .request hfresh (arrival hw)
      · cases hn
  | settle f result =>
      dsimp only at hn
      split at hn
      · next hf =>
          obtain rfl := Option.some.inj hn
          exact .settle hf
      · cases hn
  | ended f =>
      dsimp only at hn
      split at hn
      · next hf =>
          obtain rfl := Option.some.inj hn
          exact .ended hf
      · cases hn
  | resume r =>
      dsimp only at hn
      split at hn
      · next hr =>
          split at hn
          · next hf =>
              obtain rfl := Option.some.inj hn
              exact .resume hr hf (finish_spec hw)
          · cases hn
      · cases hn
  | tick now =>
      dsimp only at hn
      split at hn
      · next hle =>
          obtain rfl := Option.some.inj hn
          exact .tick hle
      · cases hn

end Marketplace.Cdn
