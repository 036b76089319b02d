import Marketplace.Cdn.Coalesced
import Mathlib.Tactic.Linarith

/-!
# Cdn.Coherent — what the answers say

A request that waits is answered by what its fetch settles with. An entry of the cache was
stored by a request that had waited for a fetch of its key, at a moment its `expiresAt`
remembers, so a HIT is fresh.
-/

namespace Marketplace.Cdn

open Core

variable {dbl : Doubles} {opts : EdgeOptions} {s t : St} {l : Label} {r f : ℕ} {req : Request}
  {key : String} {res : Response} {result : FetchResult}

/-! ## Answers -/

/-- A step touches the request it is about and no other. -/
theorem Step.request_cases (hs : Step dbl s l t) (r : ℕ) :
    t.requests r = s.requests r ∨ s.requests r = .fresh ∨
    ∃ req key f key' result, s.requests r = .waiting req key f ∧
      s.fetches f = some ⟨key', some result, true⟩ ∧ t.fetches = s.fetches ∧
      t.requests r = .answered (reply req result) := by
  have hother : ∀ (r' : ℕ) (p : Phase), r ≠ r' →
      Function.update s.requests r' p r = s.requests r := fun r' p h =>
    Function.update_of_ne h _ _
  cases hs with
  | settle hf => exact Or.inl rfl
  | ended hf => exact Or.inl rfl
  | tick hle => exact Or.inl rfl
  | @request r' req t hfresh ha =>
      by_cases hr : r = r'
      · exact Or.inr (Or.inl (hr ▸ hfresh))
      · left
        cases ha with
        | refused res' hroute ht => exact ht ▸ hother r' _ hr
        | hit key entry e uses _ _ _ _ _ _ _ ht => exact ht ▸ hother r' _ hr
        | joined key f e _ _ _ _ _ _ ht => exact ht ▸ hother r' _ hr
        | fetched key e _ _ _ _ _ _ ht => exact ht ▸ hother r' _ hr
  -- stored or not, the client gets the same reply
  | @resume r' f req key key' result t hw hf hfin =>
      by_cases hr : r = r'
      · subst hr
        refine Or.inr (Or.inr ⟨req, key, f, key', result, hw, hf, ?_⟩)
        cases hfin with
        | plain ht =>
            subst ht
            exact ⟨rfl, Function.update_self _ _ _⟩
        | stored obj e uses _ _ _ _ ht =>
            subst ht
            exact ⟨rfl, Function.update_self _ _ _⟩
      · left
        cases hfin with
        | plain ht => exact ht ▸ hother r' _ hr
        | stored obj e uses _ _ _ _ ht => exact ht ▸ hother r' _ hr

/-- An answer is not changed. -/
theorem Step.answered (hs : Step dbl s l t) (h : s.requests r = .answered res) :
    t.requests r = .answered res := by
  rcases hs.request_cases r with heq | hfresh | ⟨req, key, f, key', result, hw, -⟩
  · exact heq.trans h
  · rw [hfresh] at h
    cases h
  · rw [hw] at h
    cases h

/-- What a fetch settled with is not changed. -/
theorem Step.settled (hs : Step dbl s l t) (hsound : Fetching s)
    (h : s.fetches f = some ⟨key, some result, true⟩) :
    t.fetches f = some ⟨key, some result, true⟩ := by
  have hupdate : ∀ g x, s.fetches g ≠ s.fetches f → Function.update s.fetches g x f = s.fetches f :=
    fun g x hg => Function.update_of_ne (fun heq => hg (congrArg s.fetches heq.symm)) _ _
  rw [← h]
  cases hs with
  | tick hle => rfl
  -- a fetch is answered once: this one has its answer already
  | @settle g key' result' hg =>
      refine hupdate g _ ?_
      rw [hg, h]
      intro heq
      cases heq
  | @ended g key' result' hg =>
      refine hupdate g _ ?_
      rw [hg, h]
      intro heq
      cases heq
  | @request r' req t hfresh ha =>
      cases ha with
      | refused res' hroute ht => exact ht ▸ rfl
      | hit key entry e uses _ _ _ _ _ _ _ ht => exact ht ▸ rfl
      | joined key f e _ _ _ _ _ _ ht => exact ht ▸ rfl
      | fetched key' e _ _ _ _ _ _ ht =>
          subst ht
          refine hupdate s.nextFetch _ ?_
          rw [hsound.fresh _ (Nat.le_refl _), h]
          intro heq
          cases heq
  | @resume r' g req key' key'' result' t hr hg hfin =>
      cases hfin with
      | plain ht => exact ht ▸ rfl
      | stored obj e uses _ _ _ _ ht => exact ht ▸ rfl

/-- A request that waits goes on waiting, or has the reply its fetch settled with. -/
def Awaits (req : Request) (key : String) (f r : ℕ) (s : St) : Prop :=
  s.requests r = .waiting req key f ∨
    ∃ result, s.fetches f = some ⟨key, some result, true⟩ ∧
      s.requests r = .answered (reply req result)

/-- A request waits for its fetch until that has ended, and is then answered with what it brought;
no step of others changes that. -/
theorem Awaits.step (h : Awaits req key f r s) (hsound : Fetching s) (hs : Step dbl s l t) :
    Awaits req key f r t := by
  rcases h with hwait | ⟨result, hf, hr⟩
  · rcases hs.request_cases r with heq | hfresh | ⟨req', key', g, key'', result, hw, hg, hsame, hr⟩
    · exact Or.inl (heq.trans hwait)
    · rw [hwait] at hfresh
      cases hfresh
    · -- its own turn: the fetch is of the key it waits for
      rw [hwait] at hw
      cases hw
      obtain ⟨-, res, ended, hkey⟩ := hsound.waits r req key f hwait
      rw [hg] at hkey
      cases hkey
      exact Or.inr ⟨result, hsame ▸ hg, hr⟩
  · exact Or.inr ⟨result, hs.settled hsound hf, hs.answered hr⟩

/-- Along a run a request waits for the one fetch it began with or joined, and is answered from
it. -/
theorem Awaits.run {as : List Label} (h : Awaits req key f r s) (hsound : Sound opts s)
    (hr : (machine dbl opts).Run Machine.Always s as t) : Awaits req key f r t := by
  have hboth : Sound opts t ∧ Awaits req key f r t := by
    refine hr.invariant (P := fun s => Sound opts s ∧ Awaits req key f r s) ?_ ⟨hsound, h⟩
    intro s l t _ hn hP
    exact ⟨hP.1.next hn, hP.2.step hP.1.fetching (step_cases hP.1.within hn)⟩
  exact hboth.2

/-- An answer that was given stays. -/
theorem answered_run {as : List Label} (h : s.requests r = .answered res) (hsound : Sound opts s)
    (hr : (machine dbl opts).Run Machine.Always s as t) : t.requests r = .answered res := by
  have hboth : Sound opts t ∧ t.requests r = .answered res := by
    refine hr.invariant (P := fun s => Sound opts s ∧ s.requests r = .answered res) ?_ ⟨hsound, h⟩
    intro s l t _ hn hP
    exact ⟨hP.1.next hn, (step_cases hP.1.within hn).answered hP.2⟩
  exact hboth.2

/-- The response says `x-cache: HIT`, or `x-cache: MISS`. -/
def Marked (x : XCache) (res : Response) : Prop := ("x-cache", x.text) ∈ res.headers

/-- What an answer about an object carries: the object's own headers always, its bytes and their
kind with a 200 to a GET, and neither with a 304. -/
structure Carries (req : Request) (obj : StoredObject) (x : XCache) (res : Response) : Prop where
  marked : ∀ y, Marked y res ↔ y = x
  cacheControl : ∀ v, ("cache-control", v) ∈ res.headers ↔ truthy obj.cacheControl = some v
  etag : ∀ v, ("etag", v) ∈ res.headers ↔ truthy obj.etag = some v
  status : res.status = if ∃ etag, truthy obj.etag = some etag ∧ etagMatches req.ifNoneMatch etag
    then 304 else 200
  notModified : res.status = 304 → res.body = none
  full : res.status = 200 → res.body = (if req.method = "HEAD" then none else some obj.body) ∧
    ("content-length", toString obj.body.length) ∈ res.headers ∧
    ∀ v, ("content-type", v) ∈ res.headers ↔ truthy obj.contentType = some v

theorem XCache.text_inj {x y : XCache} : y.text = x.text ↔ y = x := by
  cases x <;> cases y <;> simp [XCache.text]

/-- What `send` makes of an object carries that object: the body with a 200, its tag with a 304.
-/
theorem send_carries {obj : StoredObject} {x : XCache} (h : send req obj x = some res) :
    Carries req obj x res := by
  unfold send writeHead at h
  dsimp only at h
  have hany : ((truthy obj.etag).any fun etag => etagMatches req.ifNoneMatch etag) = true ↔
      ∃ etag, truthy obj.etag = some etag ∧ etagMatches req.ifNoneMatch etag = true := by
    rw [Option.any_eq_true]
  split at h
  · next hmatch =>
      split at h
      · cases h
        constructor <;> simp [Marked, XCache.text_inj, hany.mp hmatch]
      · cases h
  · next hmatch =>
      split at h
      · cases h
        constructor <;> simp [Marked, XCache.text_inj, mt hany.mpr hmatch]
      · cases h

/-- An object is sent with 200 or 304, and is marked with nothing but how it was found. -/
theorem send_spec {obj : StoredObject} {x : XCache} (h : send req obj x = some res) :
    (res.status = 200 ∨ res.status = 304) ∧ ∀ y, Marked y res → y = x := by
  have hcarries := send_carries h
  refine ⟨?_, fun y => (hcarries.marked y).mp⟩
  rw [hcarries.status]
  split
  · exact Or.inr rfl
  · exact Or.inl rfl

/-! ## Where an entry comes from -/

/-- At some moment of the run, `at₀` on the clock, a request that had waited for a fetch of
this key stored the object the fetch had returned: the entry is in the cache then, and expires
`cacheableSeconds` later. -/
def StoredAt (dbl : Doubles) (opts : EdgeOptions) (s₀ s : St) (key : String)
    (obj : StoredObject) (at₀ : ℕ) : Prop :=
  ∃ as u r req f u' bs, (machine dbl opts).Run Machine.Always s₀ as u ∧ u.now = at₀ ∧
    u.requests r = .waiting req key f ∧ u.fetches f = some ⟨key, some (.object obj), true⟩ ∧
    (machine dbl opts).next u (.resume r) = some u' ∧
    u'.edge.cache.get key = some ⟨obj, expiry dbl at₀ (cacheableSeconds dbl obj.cacheControl)⟩ ∧
    (machine dbl opts).Run Machine.Always u' bs s

/-- Every entry was stored so, and expires `cacheableSeconds` later. -/
def Sourced (dbl : Doubles) (opts : EdgeOptions) (s₀ s : St) : Prop :=
  ∀ p ∈ s.edge.cache.entries, ∃ at₀, StoredAt dbl opts s₀ s p.1 p.2.obj at₀ ∧
    0 < cacheableSeconds dbl p.2.obj.cacheControl ∧
    p.2.expiresAt = expiry dbl at₀ (cacheableSeconds dbl p.2.obj.cacheControl)

/-- An entry that is in the cache after a step was there before, or is the object a request has
just brought, with the expiry its header gives it. -/
theorem Step.entries (hs : Step dbl s l t) {p : String × Entry}
    (hp : p ∈ t.edge.cache.entries) : p ∈ s.edge.cache.entries ∨
    ∃ r req key f key' obj, l = .resume r ∧ s.requests r = .waiting req key f ∧
      s.fetches f = some ⟨key', some (.object obj), true⟩ ∧
      0 < cacheableSeconds dbl obj.cacheControl ∧
      p = (key, ⟨obj, expiry dbl s.now (cacheableSeconds dbl obj.cacheControl)⟩) := by
  cases hs with
  | settle hf => exact Or.inl hp
  | ended hf => exact Or.inl hp
  | tick hle => exact Or.inl hp
  | @request r' req t hfresh ha =>
      left
      cases ha with
      | refused res' hroute ht => exact (ht ▸ hp :)
      | hit key entry e uses _ _ _ _ _ _ hsub ht => exact hsub p (ht ▸ hp :)
      | joined key f e _ _ _ _ _ hsub ht => exact hsub p (ht ▸ hp :)
      | fetched key e _ _ _ _ _ hsub ht => exact hsub p (ht ▸ hp :)
  | @resume r' f req key key' result t hr hf hfin =>
      cases hfin with
      | plain ht => exact Or.inl (ht ▸ hp :)
      | stored obj e uses hres httl _ hent ht =>
          subst hres
          rcases hent p (ht ▸ hp :) with hold | hnew
          · exact Or.inl hold
          · exact Or.inr ⟨r', req, key, f, key', obj, rfl, hr, hf, httl, hnew⟩

/-- Every entry of the cache was fetched under its key in the run, and expires when its header
said. -/
theorem sourced {s₀ : St} {as : List Label} (hinit : (machine dbl opts).Init s₀)
    (hr : (machine dbl opts).Run Machine.Always s₀ as s) : Sourced dbl opts s₀ s := by
  induction hr with
  | refl =>
      intro p hp
      obtain ⟨-, hedge, -⟩ := hinit
      rw [hedge] at hp
      cases hp
  | @step as t u l hrun _ hn ih =>
      have hsound := (Sound.init hinit).run hrun
      intro p hp
      rcases (step_cases hsound.within hn).entries hp with
        hold | ⟨r, req, key, f, key', obj, rfl, hw, hf, httl, rfl⟩
      · obtain ⟨at₀, ⟨bs, v, r, req, f, v', cs, h₁, hnow, hw, hf, h₂, hget, h₃⟩, hrest⟩ := ih p hold
        exact ⟨at₀, ⟨bs, v, r, req, f, v', _, h₁, hnow, hw, hf, h₂, hget, h₃.step trivial hn⟩,
          hrest⟩
      · obtain ⟨-, res, ended, hkey⟩ := hsound.fetching.waits r req key f hw
        rw [hf] at hkey
        cases hkey
        have hget := JsMap.get_eq_some_iff.mpr hp
        exact ⟨t.now, ⟨as, t, r, req, f, u, [], hrun, rfl, hw, hf, hn, hget, Machine.Run.refl⟩, httl,
          rfl⟩

/-- Before `expiresAt`, less than `ttl` seconds have passed. -/
theorem lt_of_lt_expiry {now at₀ : ℕ} {ttl : ℚ} (hnow : now ≤ maxTime) (httl : 0 < ttl)
    (h : ((now : ℚ) : WithTop ℚ) < expiry dbl at₀ ttl) : (now : ℚ) - at₀ < ttl * 1000 := by
  by_contra hnot
  have hpassed : ttl * 1000 ≤ (now : ℚ) - at₀ := not_lt.mp hnot
  have hle : at₀ ≤ now := by
    have hcast : (at₀ : ℚ) ≤ now := by linarith
    exact_mod_cast hcast
  have hexact : ∀ n : ℕ, n ≤ now → dbl.round n = (n : ℚ) := fun n hn =>
    dbl.exact n ((hn.trans hnow).trans (by decide))
  have hsub : ((now - at₀ : ℕ) : ℚ) = (now : ℚ) - at₀ := Nat.cast_sub hle
  have hround : dbl.round (ttl * 1000) ≤ ((now - at₀ : ℕ) : ℚ) := by
    rw [← hexact (now - at₀) (Nat.sub_le _ _), hsub]
    exact dbl.mono hpassed
  unfold expiry at h
  cases hms : dbl.round (ttl * 1000) with
  | top =>
      rw [hms] at hround
      exact absurd hround (by simp)
  | coe ms =>
      rw [hms] at hround h
      have hmsle : ms ≤ (now : ℚ) - at₀ := hsub ▸ WithTop.coe_le_coe.mp hround
      have hend : dbl.round (at₀ + ms) ≤ ((now : ℚ) : WithTop ℚ) := by
        rw [← hexact now (Nat.le_refl _)]
        exact dbl.mono (by linarith)
      exact absurd (lt_of_lt_of_le h hend) (lt_irrefl _)

/-! ## Coherence -/

/-- What the answer `res` to request `r` says, which arrived between `s₁` and `s₂` and has been
answered in `s`. -/
structure Explained (dbl : Doubles) (opts : EdgeOptions) (s₀ s₁ s₂ s : St) (r : ℕ)
    (req : Request) (res : Response) : Prop where
  /-- a MISS describes the object of a fetch that was outstanding when the request arrived -/
  miss : Marked .miss res → res.status = 200 ∨ res.status = 304 →
    ∃ key f obj, route req = .ok key ∧ Outstanding s₂ f key ∧
      s.fetches f = some ⟨key, some (.object obj), true⟩ ∧ send req obj .miss = some res
  /-- a HIT describes an object that was stored less than its lifetime ago -/
  hit : Marked .hit res → ∃ key obj at₀, route req = .ok key ∧
    StoredAt dbl opts s₀ s₁ key obj at₀ ∧ send req obj .hit = some res ∧
    0 < cacheableSeconds dbl obj.cacheControl ∧
    (s₁.now : ℚ) - at₀ < cacheableSeconds dbl obj.cacheControl * 1000
  /-- the failure of a fetch reaches all who wait for it -/
  failed : ∀ key f, s₂.requests r = .waiting req key f →
    s.fetches f = some ⟨key, some .failed, true⟩ → res = badGateway
  /-- and nobody else: any other 502 is an object whose headers Node does not send -/
  gateway : res.status = 502 →
    (∃ key f, s₂.requests r = .waiting req key f ∧
      s.fetches f = some ⟨key, some .failed, true⟩) ∨
    ∃ obj, (∃ key f, s₂.requests r = .waiting req key f ∧
        s.fetches f = some ⟨key, some (.object obj), true⟩) ∧ send req obj .miss = none ∨
      (∃ key at₀, StoredAt dbl opts s₀ s₁ key obj at₀) ∧ send req obj .hit = none

/-- A refusal carries no cache mark and is not a 502. -/
theorem route_unmarked (h : route req = .error res) : (∀ x, ¬ Marked x res) ∧ res.status ≠ 502 := by
  unfold route at h
  split at h
  · cases h
    exact ⟨fun x hx => List.not_mem_nil hx, by decide⟩
  · dsimp only at h
    split at h
    · cases h
      refine ⟨?_, by decide⟩
      intro x hx
      have heq := List.mem_singleton.mp hx
      exact absurd (congrArg Prod.fst heq) (by decide : "x-cache" ≠ "allow")
    · split at h
      · cases h
        exact ⟨fun x hx => List.not_mem_nil hx, by decide⟩
      · cases h

/-- An answer given on arrival. -/
theorem Explained.of_arrival {s₀ s₁ s₂ : St} (hans : s₂.requests r = .answered res)
    (hmiss : ¬ Marked .miss res)
    (hhit : Marked .hit res → ∃ key obj at₀, route req = .ok key ∧
      StoredAt dbl opts s₀ s₁ key obj at₀ ∧ send req obj .hit = some res ∧
      0 < cacheableSeconds dbl obj.cacheControl ∧
      (s₁.now : ℚ) - at₀ < cacheableSeconds dbl obj.cacheControl * 1000)
    (hgateway : res.status = 502 → ∃ obj,
      (∃ key at₀, StoredAt dbl opts s₀ s₁ key obj at₀) ∧ send req obj .hit = none) :
    Explained dbl opts s₀ s₁ s₂ s r req res where
  miss hm := absurd hm hmiss
  hit := hhit
  failed key f hw := by
    rw [hans] at hw
    cases hw
  gateway h := by
    obtain ⟨obj, hstored⟩ := hgateway h
    exact Or.inr ⟨obj, Or.inr hstored⟩

/-- The answer to a request that waited. -/
theorem Explained.of_wait {s₀ s₁ s₂ : St} (hroute : route req = .ok key)
    (hout : Outstanding s₂ f key) (hwait : s₂.requests r = .waiting req key f)
    (hf : s.fetches f = some ⟨key, some result, true⟩) (hres : res = reply req result) :
    Explained dbl opts s₀ s₁ s₂ s r req res := by
  subst hres
  have hobj : ∀ obj, result = .object obj →
      send req obj .miss = some (reply req result) ∨
        send req obj .miss = none ∧ reply req result = badGateway := by
    rintro obj rfl
    change _ = some ((send req obj .miss).getD badGateway) ∨
      _ ∧ (send req obj .miss).getD badGateway = badGateway
    cases send req obj .miss with
    | none => exact Or.inr ⟨rfl, rfl⟩
    | some res => exact Or.inl rfl
  -- what is cached, what is marked, what a 404 and what a 502 mean; each by the kind of result
  refine ⟨?_, ?_, ?_, ?_⟩
  · intro _ hstatus
    cases result with
    | failed =>
        change 502 = 200 ∨ 502 = 304 at hstatus
        omega
    | nothing =>
        change 404 = 200 ∨ 404 = 304 at hstatus
        omega
    | object obj =>
        rcases hobj obj rfl with hsend | ⟨-, hbad⟩
        · exact ⟨key, f, obj, hroute, hout, hf, hsend⟩
        · rw [hbad] at hstatus
          exact absurd hstatus (by decide)
  · intro hm
    exfalso
    cases result with
    | failed => exact List.not_mem_nil hm
    | nothing =>
        have heq := List.mem_singleton.mp hm
        exact absurd (congrArg Prod.snd heq) (by decide : XCache.text .hit ≠ "MISS")
    | object obj =>
        rcases hobj obj rfl with hsend | ⟨-, hbad⟩
        · exact absurd ((send_spec hsend).2 _ hm) (by decide)
        · rw [hbad] at hm
          exact List.not_mem_nil hm
  · intro key' f' hw hfail
    rw [hwait] at hw
    cases hw
    rw [hf] at hfail
    cases hfail
    rfl
  · intro hstatus
    cases result with
    | failed => exact Or.inl ⟨key, f, hwait, hf⟩
    | nothing =>
        change 404 = 502 at hstatus
        omega
    | object obj =>
        rcases hobj obj rfl with hsend | ⟨hnone, -⟩
        · have hok := (send_spec hsend).1
          omega
        · exact Or.inr ⟨obj, Or.inl ⟨⟨key, f, hwait, hf⟩, hnone⟩⟩

/-- Every answer is explained: a hit by an entry that had not expired, anything else by one fetch,
begun by this request or joined. -/
theorem explained {s₀ s₁ s₂ : St} {bs cs : List Label} (hinit : (machine dbl opts).Init s₀)
    (h₁ : (machine dbl opts).Run Machine.Always s₀ bs s₁)
    (hn : (machine dbl opts).next s₁ (.request r req) = some s₂)
    (h₂ : (machine dbl opts).Run Machine.Always s₂ cs s) (hans : s.requests r = .answered res) :
    Explained dbl opts s₀ s₁ s₂ s r req res := by
  have hsound₁ := (Sound.init hinit).run h₁
  have hsound₂ := hsound₁.next hn
  have hfetch₂ := hsound₂.fetching
  have hstep := step_cases hsound₁.within hn
  -- an answer given at once is the answer there is in the end
  have hnow : ∀ res', s₂.requests r = .answered res' → res' = res := by
    intro res' h
    have hlater := answered_run h hsound₂ h₂
    rw [hans] at hlater
    exact (Phase.answered.inj hlater).symm
  have hwaited : ∀ key f, route req = .ok key → s₂.requests r = .waiting req key f →
      Outstanding s₂ f key → Explained dbl opts s₀ s₁ s₂ s r req res := by
    intro key f hroute hwait hout
    rcases Awaits.run (Or.inl hwait) hsound₂ h₂ with hstill | ⟨result, hf, hr⟩
    · rw [hstill] at hans
      cases hans
    · rw [hans] at hr
      exact .of_wait hroute hout hwait hf (Phase.answered.inj hr)
  -- answered at once, or made to wait for the fetch that decides the answer
  cases hstep with
  | request hfresh ha =>
      cases ha with
      | refused res' hroute ht =>
          have hr : s₂.requests r = .answered res' := by
            rw [ht]
            exact Function.update_self _ _ _
          obtain rfl := hnow res' hr
          obtain ⟨hunmarked, hstatus⟩ := route_unmarked hroute
          exact .of_arrival hr (hunmarked _) (fun h => absurd h (hunmarked _))
            (fun h => absurd h hstatus)
      | hit key entry e uses hroute hget hlt _ _ _ _ ht =>
          have hr : s₂.requests r = .answered ((send req entry.obj .hit).getD badGateway) := by
            rw [ht]
            exact Function.update_self _ _ _
          obtain rfl := hnow _ hr
          obtain ⟨at₀, hstored, httl, hexp⟩ :=
            sourced hinit h₁ (key, entry) (JsMap.get_eq_some_iff.mp hget)
          cases hsend : send req entry.obj .hit with
          | none =>
              rw [hsend] at hr
              exact .of_arrival hr List.not_mem_nil (fun h => absurd h List.not_mem_nil)
                fun _ => ⟨entry.obj, ⟨key, at₀, hstored⟩, hsend⟩
          | some res =>
              rw [hsend] at hr
              obtain ⟨hstatus, hmarked⟩ := send_spec hsend
              refine .of_arrival hr (fun h => absurd (hmarked _ h) (by decide)) ?_ ?_
              · intro _
                have hlt' := lt_of_lt_expiry hsound₁.fetching.clock httl (hexp ▸ hlt)
                exact ⟨key, entry.obj, at₀, hroute, hstored, hsend, httl, hlt'⟩
              · intro h
                change res.status = 502 at h
                omega
      | joined key f e hroute hget _ _ _ _ ht =>
          have hw : s₂.requests r = .waiting req key f := by
            rw [ht]
            exact Function.update_self _ _ _
          have hout : Outstanding s₂ f key := by
            obtain ⟨result, hres⟩ := (hsound₁.fetching.inflight key f).mp hget
            exact ⟨result, by rw [ht]; exact hres⟩
          exact hwaited key f hroute hw hout
      | fetched key e hroute _ _ _ _ _ ht =>
          have hw : s₂.requests r = .waiting req key s₁.nextFetch := by
            rw [ht]
            exact Function.update_self _ _ _
          have hout : Outstanding s₂ s₁.nextFetch key := by
            rw [ht]
            exact ⟨none, Function.update_self _ _ _⟩
          exact hwaited key _ hroute hw hout

/-! ## The edge -/

/-- A step by which a failed fetch is reported. -/
inductive Reports (s : St) (f : ℕ) : Label → Prop
  | settle : Reports s f (.settle f .failed)
  | ended {key : String} : s.fetches f = some ⟨key, some .failed, false⟩ →
      Reports s f (.ended f)
  | resume {r : ℕ} {req : Request} {key key' : String} : s.requests r = .waiting req key f →
      s.fetches f = some ⟨key', some .failed, true⟩ → Reports s f (.resume r)

/-- Steps of a fetch leave cache and counters alone. -/
theorem Step.reports (hs : Step dbl s l t) (h : Reports s f l) :
    t.edge.cache = s.edge.cache ∧ t.edge.stats = s.edge.stats := by
  cases h with
  | settle =>
      cases hs with
      | settle hf => exact ⟨rfl, rfl⟩
  | ended hf =>
      cases hs with
      | ended hf' => exact ⟨rfl, rfl⟩
  | resume hr hf =>
      cases hs with
      | resume hr' hf' hfin =>
          rw [hr] at hr'
          cases hr'
          rw [hf] at hf'
          cases hf'
          cases hfin with
          | plain ht =>
              subst ht
              exact ⟨rfl, rfl⟩
          | stored obj e uses hres _ _ _ _ => cases hres

/-- Whoever waits for a failed fetch can go on, and is answered 502. -/
theorem resume_failed {key' : String} (hrunning : s.hung = false)
    (hr : s.requests r = .waiting req key f) (hf : s.fetches f = some ⟨key', some .failed, true⟩) :
    (machine dbl opts).next s (.resume r) = some (s.answer r badGateway) := by
  change St.next dbl opts s (.resume r) = _
  unfold St.next
  rw [if_neg (by simp [hrunning])]
  dsimp only
  rw [hr]
  dsimp only
  rw [hf]
  rfl

/-- In every reachable state `inflight` is the outstanding fetches, one for each key at most, and
no more fetches than misses were made; every answer is explained by the run up to it; and a
failed fetch answers 502 to those who wait for it and leaves the cache as it was. -/
theorem edge_coherent {s₀ : St} {as : List Label} (hinit : (machine dbl opts).Init s₀)
    (hr : (machine dbl opts).Run Machine.Always s₀ as s) :
    (∀ key f, s.edge.inflight.get key = some f ↔ Outstanding s f key) ∧
    (∀ key f g, Outstanding s f key → Outstanding s g key → f = g) ∧
    s.edge.stats.originFetches ≤ s.edge.stats.misses ∧
    (∀ s₁ s₂ bs cs r req res, (machine dbl opts).Run Machine.Always s₀ bs s₁ →
      (machine dbl opts).next s₁ (.request r req) = some s₂ →
      (machine dbl opts).Run Machine.Always s₂ cs s → s.requests r = .answered res →
      Explained dbl opts s₀ s₁ s₂ s r req res) ∧
    (∀ f l t, Reports s f l → (machine dbl opts).next s l = some t →
      t.edge.cache = s.edge.cache ∧ t.edge.stats = s.edge.stats) ∧
    ∀ r req key f key', s.requests r = .waiting req key f →
      s.fetches f = some ⟨key', some .failed, true⟩ →
      (machine dbl opts).next s (.resume r) = some (s.answer r badGateway) := by
  have hsound := (Sound.init hinit).run hr
  refine ⟨hsound.fetching.inflight, ?_, hsound.fetching.counts, ?_, ?_, ?_⟩
  · intro key f g hf hg
    have hget := (hsound.fetching.inflight key f).mpr hf
    rw [(hsound.fetching.inflight key g).mpr hg] at hget
    exact (Option.some.inj hget).symm
  · intro s₁ s₂ bs cs r req res h₁ hn h₂ hans
    exact explained hinit h₁ hn h₂ hans
  · intro f l t hrep hn
    exact (step_cases hsound.within hn).reports hrep
  · intro r req key f key' hw hf
    exact resume_failed hsound.within.running hw hf

/-! ## A miss, and a hit on what it stored -/

/-- A miss stores the asset, and a HEAD is a hit 59.999 s later. -/
theorem edge_coherent_hit : ∃ s₁ s₂ res,
    (machine .unrounded fiveBytes).exec (fun _ _ => true) emptyEdge
      (firstVisit 0 "/assets/a.css" [1, 2, 3] ++ [.tick 60999]) = some s₁ ∧
    (machine .unrounded fiveBytes).next s₁ (.request 1 ⟨"HEAD", "/assets/a.css", none⟩) = some s₂ ∧
    s₂.requests 1 = .answered res ∧ Marked .hit res ∧
    Explained .unrounded fiveBytes emptyEdge s₁ s₂ s₂ 1 ⟨"HEAD", "/assets/a.css", none⟩ res := by
  have hrun : ((machine .unrounded fiveBytes).exec (fun _ _ => true) emptyEdge
      (firstVisit 0 "/assets/a.css" [1, 2, 3] ++ [.tick 60999])).any (fun s₁ =>
        ((machine .unrounded fiveBytes).next s₁ (.request 1 ⟨"HEAD", "/assets/a.css", none⟩)).any
          fun s₂ => (s₂.requests 1).response.any fun res =>
            res.headers.contains ("x-cache", "HIT")) = true := by
    decide +kernel
  rw [Option.any_eq_true] at hrun
  obtain ⟨s₁, hexec, hrest⟩ := hrun
  rw [Option.any_eq_true] at hrest
  obtain ⟨s₂, hn, hans⟩ := hrest
  have h₁ : (machine .unrounded fiveBytes).Run Machine.Always emptyEdge _ s₁ :=
    Machine.exec_always hexec
  have h₂ := h₁.step trivial hn
  obtain ⟨-, -, -, hall, -⟩ := edge_coherent (emptyEdge_init _ _) h₂
  cases hres : s₂.requests 1 with
  | fresh =>
      rw [hres] at hans
      cases hans
  | waiting req key f =>
      rw [hres] at hans
      cases hans
  | answered res =>
      rw [hres] at hans
      have hmarked : Marked .hit res := List.contains_iff_mem.mp hans
      refine ⟨s₁, s₂, res, hexec, hn, hres, hmarked, ?_⟩
      exact hall s₁ s₂ _ [] 1 _ res h₁ hn Machine.Run.refl hres

end Marketplace.Cdn
