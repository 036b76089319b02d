import Marketplace.Cache.Fresh
import Marketplace.Core.JsText
import Marketplace.Orders.Retry
import Marketplace.Sales.Card

/-!
# Sales.Cached — product cards behind the cache

`GET /products/:productId/card` of `src/products/product-card.controller.ts`: any number of
requests over the single-flight cache, whose loads run the query of the card in the shop, which
goes on taking orders. Both clocks run on their own; ages are by that of Redis.

A card may be old, but not by more than a TTL and the time its loader took: it is the card of a
moment of the run, and adds up for that moment (`cards_fresh`). As nothing ever restocks, it never
shows less stock than there is.
-/

namespace Marketplace.Sales

open Core Auth Outbox Orders
open Cache (SingleFlightOptions Fate)

variable {η : Type} [DecidableEq η]

def cardKey (productId : ProductId) : String := "product:card:" ++ toString productId

/-- Two products have different keys in the cache. -/
theorem cardKey_injective {p q : ProductId} (h : cardKey p = cardKey q) : p = q := by
  have htexts : (toString p).toList = (toString q).toList := by
    have hlists := congrArg String.toList h
    rw [cardKey, cardKey, String.toList_append, String.toList_append] at hlists
    exact List.append_cancel_left hlists
  have hnumber := JsText.number_toString p
  rw [htexts, JsText.number_toString q] at hnumber
  exact_mod_cast (Option.some.inj hnumber).symm

/-- The card as JSON: an infinite number is written as `null`. -/
def cardJson : Option ProductCard → Json
  | none => .null
  | some c => .obj
      [("id", .num c.id), ("name", .str c.name), ("price_cents", .num c.priceCents),
       ("stock", .num c.stock), ("is_active", .bool c.isActive),
       ("units_sold", .num c.unitsSold), ("orders_count", .num c.ordersCount),
       ("revenue_cents", match c.revenueCents with
          | none => .null
          | some q => .num q),
       ("last_ordered_at", match c.lastOrderedAt with
          | none => .null
          | some text => .str text)]

/-- `ProductCardController.getCard`, when the cache has answered. -/
def getCard (id : ProductId) : Fate Thrown → Except Thrown Json
  | .hit none => .error (.http 404 s!"Product {id} not found")
  | .hit (some card) | .loaded card =>
      if card.falsy then .error (.http 404 s!"Product {id} not found") else .ok card
  | .threw err => .error err

/-! ## The shop and the cache -/

structure Site (η : Type) where
  shop : Orders.St η
  cache : Cache.St Thrown
  /-- The product that call `i` asks for. -/
  asked : ℕ → ProductId
  /-- What the query of its load has answered. -/
  answer : ℕ → Option (Except Thrown (Option ProductCard))
  /-- When call `i` began, and when its query ran: for the statements only. -/
  since : ℕ → ℕ
  seen : ℕ → ℕ

inductive Step where
  | shop (l : Orders.Label)
  | get (i : ℕ) (productId : ProductId)
  | query (i : ℕ)
  /-- The query is rejected, as when the connection is lost. -/
  | queryFails (i : ℕ) (err : Thrown)
  /-- `load` returns or throws. -/
  | returns (i : ℕ)
  | redis (i : ℕ) (a : Cache.Stmt Thrown)
  | env (e : Cache.Env)

/-- A Redis command, and no event of `load`. -/
def IsCommand : Cache.Stmt Thrown → Bool
  | .getOrLoad _ | .loaded _ | .threw _ => false
  | _ => true

def IsLoading : Cache.Pc Thrown → Bool
  | .load _ _ => true
  | _ => false

def outcome : Except Thrown (Option ProductCard) → Cache.Stmt Thrown
  | .ok card => .loaded (cardJson card)
  | .error err => .threw err

section

variable (dbl : Doubles) (opts : SingleFlightOptions) (hash : Request → η)
  (names : ProductId → String) (items₀ : List OrderItem)

def Site.next (s : Site η) : Step → Option (Site η)
  | .shop l => ((Orders.machine hash).next s.shop l).map fun shop => { s with shop }
  | .get i p =>
      ((Cache.machine Thrown opts).next s.cache (.call i (.getOrLoad (cardKey p)))).map
        fun cache =>
          { s with
            cache
            asked := Function.update s.asked i p
            answer := Function.update s.answer i none
            since := Function.update s.since i s.cache.shared.now }
  | .query i =>
      if IsLoading (s.cache.proc i) && (s.answer i).isNone then
        let card := load dbl (tablesOf names items₀ s.shop.shared) (s.asked i)
        some
          { s with
            answer := Function.update s.answer i (some card)
            seen := Function.update s.seen i s.cache.shared.now }
      else none
  | .queryFails i err =>
      if IsLoading (s.cache.proc i) && (s.answer i).isNone then
        some { s with answer := Function.update s.answer i (some (.error err)) }
      else none
  | .returns i => (s.answer i).bind fun answer =>
      ((Cache.machine Thrown opts).next s.cache (.call i (outcome answer))).map
        fun cache => { s with cache }
  | .redis i a =>
      if IsCommand a then
        ((Cache.machine Thrown opts).next s.cache (.call i a)).map fun cache => { s with cache }
      else none
  | .env e => ((Cache.machine Thrown opts).next s.cache (.env e)).map fun cache => { s with cache }

def cards : Machine (Site η) Step where
  Init s := (Orders.machine hash).Init s.shop ∧ (Cache.machine Thrown opts).Init s.cache ∧
    ∀ i, s.answer i = none
  next := Site.next dbl opts hash names items₀

end

/-- A SET is run soon after the query of its load. -/
def Prompt (lag : ℕ) (s : Site η) (l : Step) : Prop :=
  ∀ i a ttl, l = .redis i a → a = .set ttl ∨ a = .lostSet ttl →
    s.cache.shared.now ≤ s.seen i + lag

/-! ## What is cached is of a state on the way -/

section

variable {dbl : Doubles} {opts : SingleFlightOptions} {hash : Request → η}
  {names : ProductId → String} {items₀ : List OrderItem} {lag : ℕ} {s₀ s t u : Site η}
  {as : List Step} {l : Step} {i : ℕ}

/-- The run went through a state in which the text was the card of the product with this key. -/
def Shown (dbl : Doubles) (opts : SingleFlightOptions) (hash : Request → η)
    (names : ProductId → String) (items₀ : List OrderItem) (lag : ℕ) (s₀ : Site η)
    (as : List Step) (s : Site η) (key : String) (value : Json) (time : ℕ) : Prop :=
  ∃ p card u, key = cardKey p ∧ value = cardJson card ∧
    (cards dbl opts hash names items₀).Through (Prompt lag) s₀ as s u ∧
    u.cache.shared.now = time ∧
    load dbl (tablesOf names items₀ u.shop.shared) p = .ok card

theorem Shown.step (hok : Prompt lag s l) (hn : s.next dbl opts hash names items₀ l = some t)
    (key : String) (value : Json) (time : ℕ)
    (h : Shown dbl opts hash names items₀ lag s₀ as s key value time) :
    Shown dbl opts hash names items₀ lag s₀ (as ++ [l]) t key value time := by
  obtain ⟨p, card, u, hkey, hvalue, hthrough, htime, hload⟩ := h
  exact ⟨p, card, u, hkey, hvalue, hthrough.step hok hn, htime, hload⟩

/-- What holds while the cache is in use: `V` is what was right when. -/
structure Current (opts : SingleFlightOptions) (lag : ℕ) (V : String → Json → ℕ → Prop)
    (s : Site η) : Prop where
  answers : ∀ i card, s.answer i = some (.ok card) →
    V (cardKey (s.asked i)) (cardJson card) (s.seen i) ∧ s.since i ≤ s.seen i
  keys : ∀ i key, (s.cache.proc i).key? = some key → key = cardKey (s.asked i)
  calls : ∀ i, (s.cache.proc i).Recent opts lag V (s.since i) (s.seen i) s.cache.shared.now
  texts : Cache.TextsRecent opts lag V s.cache.shared

variable {V V' : String → Json → ℕ → Prop}

section

omit [DecidableEq η]

/-- What is current stays so when more values count as right. -/
theorem Current.mono (hV : ∀ key value time, V key value time → V' key value time)
    (h : Current opts lag V s) : Current opts lag V' s where
  answers i card hcard := ⟨hV _ _ _ (h.answers i card hcard).1, (h.answers i card hcard).2⟩
  keys := h.keys
  calls i := (h.calls i).mono hV (Nat.le_refl _)
  texts := h.texts.mono hV

/-- A command of call `i`, or an event of its load. -/
theorem Current.call {a : Cache.Stmt Thrown} {cache : Cache.St Thrown} (h : Current opts lag V s)
    (hn : (Cache.machine Thrown opts).next s.cache (.call i a) = some cache)
    (hbegin : ∀ key, a ≠ .getOrLoad key)
    (hloaded : ∀ key lock value, s.cache.proc i = .load key lock → a = .loaded value →
      V key value (s.seen i) ∧ s.since i ≤ s.seen i)
    (hset : ∀ ttl, a = .set ttl ∨ a = .lostSet ttl → s.cache.shared.now ≤ s.seen i + lag) :
    Current opts lag V { s with cache } := by
  obtain ⟨d, pc, hst, rfl⟩ := Procs.next_call hn
  have hd := Cache.stmt_does hst
  have hnow : d.now = s.cache.shared.now := hd.now
  obtain ⟨htexts, hpc⟩ := Cache.Does.recent hst (h.calls i) h.texts
    (fun hidle => by
      -- an idle call can only begin
      rw [hidle] at hd
      cases hd with
      | begin => exact absurd rfl (hbegin _)
      | hit hreads _ | miss hreads _ | down hreads _ =>
          rcases hreads with heq | heq
          · cases heq
          · cases heq)
    hloaded hset
  refine { answers := h.answers, keys := ?_, calls := ?_, texts := htexts }
  · apply Procs.forall_update (Q := fun j (pc : Cache.Pc Thrown) =>
      ∀ key, pc.key? = some key → key = cardKey (s.asked j))
    · intro key hkey
      rcases hd.key_back hkey with hback | hget
      · exact h.keys i key hback
      · exact absurd hget (hbegin key)
    · intro j _
      exact h.keys j
  · apply Procs.forall_update (Q := fun j (pc : Cache.Pc Thrown) =>
      pc.Recent opts lag V (s.since j) (s.seen j) d.now) hpc
    intro j _
    rw [hnow]
    exact h.calls j

/-- A call begins. -/
theorem Current.get {p : ProductId} {cache : Cache.St Thrown} (h : Current opts lag V s)
    (hn : (Cache.machine Thrown opts).next s.cache (.call i (.getOrLoad (cardKey p))) =
      some cache) :
    Current opts lag V
      { s with
        cache
        asked := Function.update s.asked i p
        answer := Function.update s.answer i none
        since := Function.update s.since i s.cache.shared.now } := by
  obtain ⟨d, pc, hst, rfl⟩ := Procs.next_call hn
  have hd := Cache.stmt_does hst
  -- a call can only begin here, so the cache is not touched
  obtain ⟨rfl, rfl, hidle⟩ : d = s.cache.shared ∧ pc = .first (cardKey p) ∧
      s.cache.proc i = .idle := by
    generalize s.cache.proc i = before at hd
    cases hd with
    | begin => exact ⟨rfl, rfl, rfl⟩
    | down _ ha | lockFailed ha _ | againDown ha | write ha | release ha =>
        rcases ha with heq | heq
        · cases heq
        · cases heq
  refine { answers := ?_, keys := ?_, calls := ?_, texts := h.texts }
  · intro j card hcard
    change Function.update s.answer i none j = _ at hcard
    by_cases hj : j = i
    · subst hj
      rw [Function.update_self] at hcard
      cases hcard
    · rw [Function.update_of_ne hj] at hcard
      show V (cardKey (Function.update s.asked i p j)) _ _ ∧
        Function.update s.since i _ j ≤ s.seen j
      rw [Function.update_of_ne hj, Function.update_of_ne hj]
      exact h.answers j card hcard
  · intro j key hkey
    change (Function.update s.cache.proc i _ j).key? = some key at hkey
    show key = cardKey (Function.update s.asked i p j)
    by_cases hj : j = i
    · subst hj
      rw [Function.update_self] at hkey
      rw [Function.update_self]
      exact (Option.some.inj hkey).symm
    · rw [Function.update_of_ne hj] at hkey
      rw [Function.update_of_ne hj]
      exact h.keys j key hkey
  · intro j
    show (Function.update s.cache.proc i _ j).Recent opts lag V
      (Function.update s.since i _ j) (s.seen j) s.cache.shared.now
    by_cases hj : j = i
    · subst hj
      rw [Function.update_self, Function.update_self]
      exact Nat.le_refl _
    · rw [Function.update_of_ne hj, Function.update_of_ne hj]
      exact h.calls j

/-- A query that has answered, or failed; only the call that loads has one. -/
theorem Current.answered {answer : Except Thrown (Option ProductCard)} (h : Current opts lag V s)
    (hloading : IsLoading (s.cache.proc i) = true)
    (hright : ∀ card, answer = .ok card →
      V (cardKey (s.asked i)) (cardJson card) s.cache.shared.now) :
    Current opts lag V
      { s with
        answer := Function.update s.answer i (some answer)
        seen := Function.update s.seen i s.cache.shared.now } := by
  have hpc := h.calls i
  refine { answers := ?_, keys := h.keys, calls := ?_, texts := h.texts }
  · intro j card hcard
    change Function.update s.answer i _ j = _ at hcard
    show V _ _ (Function.update s.seen i _ j) ∧ s.since j ≤ Function.update s.seen i _ j
    by_cases hj : j = i
    · subst hj
      rw [Function.update_self] at hcard
      rw [Function.update_self]
      refine ⟨hright card (Option.some.inj hcard), ?_⟩
      generalize s.cache.proc j = pc at hloading hpc
      cases pc with
      | load key lock => exact hpc
      | _ => cases hloading
    · rw [Function.update_of_ne hj] at hcard
      rw [Function.update_of_ne hj]
      exact h.answers j card hcard
  · intro j
    show (s.cache.proc j).Recent opts lag V (s.since j) (Function.update s.seen i _ j) _
    by_cases hj : j = i
    · subst hj
      generalize s.cache.proc j = pc at hloading hpc
      cases pc with
      | load key lock => exact hpc
      | _ => cases hloading
    · rw [Function.update_of_ne hj]
      exact h.calls j

end

/-- A load brings a value only if the query answered, and then it is the card. -/
theorem outcome_loaded {answer : Except Thrown (Option ProductCard)} {value : Json}
    (h : outcome answer = .loaded value) : ∃ card, answer = .ok card ∧ value = cardJson card := by
  cases answer with
  | error err => cases h
  | ok card =>
      cases h
      exact ⟨card, rfl, rfl⟩

/-- Every step keeps the answers and the cached texts current: a query shows the shop as it is,
and the rest hands values on. -/
theorem Current.step (hr : (cards dbl opts hash names items₀).Run (Prompt lag) s₀ as s)
    (h : Current opts lag (Shown dbl opts hash names items₀ lag s₀ as s) s)
    (hok : Prompt lag s l) (hn : s.next dbl opts hash names items₀ l = some t) :
    Current opts lag (Shown dbl opts hash names items₀ lag s₀ (as ++ [l]) t) t := by
  have hlater := h.mono fun key value time => Shown.step hok hn key value time
  -- what a query reads is right at the moment after it, which is the same to the shop
  have hhere := Machine.Through.here (hr.step hok hn)
  cases l with
  | shop l =>
      obtain ⟨shop, -, rfl⟩ := Option.map_eq_some_iff.mp hn
      exact
        { answers := hlater.answers
          keys := hlater.keys
          calls := hlater.calls
          texts := hlater.texts }
  | get j p =>
      obtain ⟨cache, hcache, rfl⟩ := Option.map_eq_some_iff.mp hn
      exact hlater.get hcache
  | query j =>
      obtain ⟨hcond, hnext⟩ := Option.ite_none_right_eq_some.mp hn
      obtain ⟨hloading, -⟩ := Bool.and_eq_true_iff.mp hcond
      obtain rfl := Option.some.inj hnext
      apply hlater.answered hloading
      intro card hcard
      exact ⟨s.asked j, card, _, rfl, rfl, hhere, rfl, hcard⟩
  | queryFails j err =>
      obtain ⟨hcond, hnext⟩ := Option.ite_none_right_eq_some.mp hn
      obtain rfl := Option.some.inj hnext
      refine { hlater with answers := ?_ }
      intro k card hcard
      change Function.update s.answer j _ k = _ at hcard
      by_cases hk : k = j
      · subst hk
        rw [Function.update_self] at hcard
        cases Option.some.inj hcard
      · rw [Function.update_of_ne hk] at hcard
        exact hlater.answers k card hcard
  -- the answer of the query becomes the loaded value of the cache's call
  | returns j =>
      obtain ⟨answer, hanswer, hcall⟩ := Option.bind_eq_some_iff.mp hn
      obtain ⟨cache, hcache, rfl⟩ := Option.map_eq_some_iff.mp hcall
      apply hlater.call hcache
      · intro key
        cases answer <;> exact fun heq => nomatch heq
      · intro key lock value hpc ha
        obtain ⟨card, rfl, rfl⟩ := outcome_loaded ha
        have hkey := h.keys j key (by rw [hpc]; rfl)
        rw [hkey]
        exact hlater.answers j card hanswer
      · intro ttl ha
        cases answer <;> rcases ha with heq | heq <;> cases heq
  -- commands of the cache move no card but the one the call has loaded
  | redis j a =>
      obtain ⟨hcommand, hcall⟩ := Option.ite_none_right_eq_some.mp hn
      obtain ⟨cache, hcache, rfl⟩ := Option.map_eq_some_iff.mp hcall
      apply hlater.call hcache
      · rintro key rfl
        cases hcommand
      · rintro key lock value - rfl
        cases hcommand
      · intro ttl ha
        exact hok j a ttl rfl ha
  | env e =>
      obtain ⟨cache, hcache, rfl⟩ := Option.map_eq_some_iff.mp hn
      obtain ⟨d, he, rfl⟩ := Procs.next_env hcache
      have hnow : s.cache.shared.now ≤ d.now := Cache.env_now he
      exact
        { answers := hlater.answers
          keys := hlater.keys
          calls := fun j => (hlater.calls j).mono (fun _ _ _ hV => hV) hnow
          texts := hlater.texts.env he }

/-- Along any prompt run answers and cached texts are current. -/
theorem current_run (hinit : (cards dbl opts hash names items₀).Init s₀)
    (hr : (cards dbl opts hash names items₀).Run (Prompt lag) s₀ as s) :
    Current opts lag (Shown dbl opts hash names items₀ lag s₀ as s) s := by
  induction hr with
  | refl =>
      refine { answers := ?_, keys := ?_, calls := ?_, texts := ?_ }
      · intro i card hcard
        rw [hinit.2.2 i] at hcard
        cases hcard
      · intro i key hkey
        rw [hinit.2.1.2 i] at hkey
        cases hkey
      · intro i
        rw [hinit.2.1.2 i]
        trivial
      · intro key json expiresAt hkey
        rw [hinit.2.1.1 key] at hkey
        cases hkey
  | step hr hok hn ih => exact ih.step hr hok hn

/-! ## The shop of a run -/

/-- The shop's part of a run is a run of the shop. -/
theorem shop_run {ok : Site η → Step → Prop}
    (hr : (cards dbl opts hash names items₀).Run ok s as t) :
    ∃ ls, (Orders.machine hash).Run Machine.Always s.shop ls t.shop := by
  refine hr.simulates Site.shop (fun _ _ _ _ _ (_ : True) => (trivial : True)) ?_ trivial
  intro s l t _ hn _
  cases l with
  | shop l =>
      obtain ⟨shop, hshop, rfl⟩ := Option.map_eq_some_iff.mp hn
      exact ⟨[l], Machine.Run.once hshop⟩
  | get j p | env e =>
      obtain ⟨cache, -, rfl⟩ := Option.map_eq_some_iff.mp hn
      exact ⟨[], Machine.Run.refl⟩
  | query j | queryFails j err =>
      obtain ⟨-, hnext⟩ := Option.ite_none_right_eq_some.mp hn
      obtain rfl := Option.some.inj hnext
      exact ⟨[], Machine.Run.refl⟩
  | returns j =>
      obtain ⟨answer, -, hcall⟩ := Option.bind_eq_some_iff.mp hn
      obtain ⟨cache, -, rfl⟩ := Option.map_eq_some_iff.mp hcall
      exact ⟨[], Machine.Run.refl⟩
  | redis j a =>
      obtain ⟨-, hcall⟩ := Option.ite_none_right_eq_some.mp hn
      obtain ⟨cache, -, rfl⟩ := Option.map_eq_some_iff.mp hcall
      exact ⟨[], Machine.Run.refl⟩

/-- No order path restocks. -/
theorem stock_falls {a b c : Orders.St η} {ls ms : List Orders.Label} {p : ProductId}
    (hs : (Orders.machine hash).Init a) (hr : (Orders.machine hash).Run Machine.Always a ls b)
    (hr' : (Orders.machine hash).Run Machine.Always b ms c) :
    stockOf c.shared p ≤ stockOf b.shared p := by
  induction hr' with
  | refl => exact Int.le_refl _
  | @step ms c d l hrun _ hn ih =>
      refine Int.le_trans ?_ ih
      cases l with
      | env dt =>
          obtain ⟨e, he, rfl⟩ := Procs.next_env hn
          cases he
          exact Int.le_refl _
      | call i a =>
          obtain ⟨e, pc, hst, rfl⟩ := Procs.next_call hn
          exact Effect.stockOf_le ((holds hs (hr.trans hrun)).2 i) (stmt_effect hst) p

/-- A card is handed over only from the cache or from a load, and never a falsy one. -/
theorem getCard_ok {p : ProductId} {fate : Fate Thrown} {json : Json}
    (h : getCard p fate = .ok json) :
    (fate = .hit (some json) ∨ fate = .loaded json) ∧ json.falsy = false := by
  have nonfalsy : ∀ v : Json, (if v.falsy then
      Except.error (Thrown.http 404 s!"Product {p} not found") else .ok v) = .ok json →
        v = json ∧ json.falsy = false := by
    intro v hv
    cases hfalsy : v.falsy with
    | true =>
        rw [hfalsy] at hv
        cases hv
    | false =>
        rw [hfalsy] at hv
        obtain rfl := Except.ok.inj hv
        exact ⟨rfl, hfalsy⟩
  cases fate with
  | threw err => cases h
  | loaded v =>
      obtain ⟨rfl, hfalsy⟩ := nonfalsy v h
      exact ⟨Or.inr rfl, hfalsy⟩
  | hit value =>
      cases value with
      | none => cases h
      | some v =>
          obtain ⟨rfl, hfalsy⟩ := nonfalsy v h
          exact ⟨Or.inl rfl, hfalsy⟩

/-- What a call ends with, if its load has not thrown. -/
theorem fate_shown {key : String} {fate : Fate Thrown}
    (hinit : (cards dbl opts hash names items₀).Init s₀)
    (hr : (cards dbl opts hash names items₀).Run (Prompt lag) s₀ as s)
    (hdone : s.cache.proc i = .done key fate) (hthrew : ∀ err, fate ≠ .threw err) :
    ∃ card u, (fate = .hit (some (cardJson card)) ∨ fate = .loaded (cardJson card)) ∧
      (cards dbl opts hash names items₀).Through (Prompt lag) s₀ as s u ∧
      load dbl (tablesOf names items₀ u.shop.shared) (s.asked i) = .ok card ∧
      s.since i ≤ u.cache.shared.now + lag + Cache.lifetime opts (cardJson card) := by
  have hcurrent := current_run hinit hr
  have hkey := hcurrent.keys i key (by rw [hdone]; rfl)
  have hfate := hcurrent.calls i
  rw [hdone] at hfate
  -- the key says which product the card is of
  have shown : ∀ value, Cache.Recent opts lag (Shown dbl opts hash names items₀ lag s₀ as s) key
      value (s.since i) → ∃ card u, value = cardJson card ∧
        (cards dbl opts hash names items₀).Through (Prompt lag) s₀ as s u ∧
        load dbl (tablesOf names items₀ u.shop.shared) (s.asked i) = .ok card ∧
        s.since i ≤ u.cache.shared.now + lag + Cache.lifetime opts (cardJson card) := by
    rintro value ⟨time, ⟨p, card, u, hp, rfl, hthrough, rfl, hload⟩, hrecent⟩
    obtain rfl := cardKey_injective (hkey.symm.trans hp)
    exact ⟨card, u, rfl, hthrough, hload, hrecent⟩
  cases fate with
  | threw err => exact absurd rfl (hthrew err)
  | loaded value =>
      obtain ⟨card, u, rfl, h⟩ := shown value hfate
      exact ⟨card, u, Or.inr rfl, h⟩
  | hit value =>
      obtain ⟨v, rfl, hrecent⟩ := hfate
      obtain ⟨card, u, rfl, h⟩ := shown v hrecent
      exact ⟨card, u, Or.inl rfl, h⟩

/-- Whatever the cache, its locks and the connections do, a card that is answered is the one of a
moment of the run at most `lag` and a TTL before it was asked for, adds up for that moment, and
shows no less stock than is left now; and a product of the list has a card, unless a load threw. -/
theorem cards_fresh {key : String} {fate : Fate Thrown}
    (hinit : (cards dbl opts hash names items₀).Init s₀)
    (hr : (cards dbl opts hash names items₀).Run (Prompt lag) s₀ as s)
    (h₀ : Before s₀.shop.shared items₀) (hdone : s.cache.proc i = .done key fate) :
    (∀ json, getCard (s.asked i) fate = .ok json → ∃ c u r₀, json = cardJson (some c) ∧
      (cards dbl opts hash names items₀).Through (Prompt lag) s₀ as s u ∧
      s.since i ≤ u.cache.shared.now + lag + 1000 * (opts.ttlBaseSec + opts.ttlJitterSec) ∧
      (s₀.shop.shared.products (s.asked i)).base = some r₀ ∧
      Accounts dbl items₀ r₀ (tablesOf names items₀ u.shop.shared) (s.asked i) c ∧
      stockOf s.shop.shared (s.asked i) ≤ c.stock) ∧
    ((s₀.shop.shared.products (s.asked i)).base.isSome → (∀ err, fate ≠ .threw err) →
      ∃ json, getCard (s.asked i) fate = .ok json) := by
  constructor
  · intro json hok
    obtain ⟨hshown, hnonfalsy⟩ := getCard_ok hok
    obtain ⟨card, u, hfate, hthrough, hload, hrecent⟩ := fate_shown hinit hr hdone (by
      rintro err rfl
      rcases hshown with heq | heq <;> cases heq)
    obtain rfl : json = cardJson card := by
      rcases hshown with rfl | rfl <;> rcases hfate with heq | heq <;> cases heq
      · rfl
      · rfl
    cases card with
    | none => cases hnonfalsy
    | some c =>
        obtain ⟨bs, cs, -, hbefore, hafter⟩ := id hthrough
        obtain ⟨ls, hls⟩ := shop_run hbefore
        obtain ⟨ms, hms⟩ := shop_run hafter
        have hinv := (holds hinit.1 hls).1
        have hb := booked hinit.1 hls
        cases hrow : (u.shop.shared.products (s.asked i)).base with
        | none =>
            unfold load at hload
            rw [show (tablesOf names items₀ u.shop.shared).products (s.asked i) = none from hrow]
              at hload
            cases hload
        | some r =>
            obtain ⟨r₀, hr₀, -⟩ := hinv.conserved.stock _ _ hrow
            have haccounts := accounts hinv hb h₀ hrow hr₀ hload
            refine ⟨c, u, r₀, rfl, hthrough, hrecent, hr₀, haccounts, ?_⟩
            have hstock := stock_falls hinit.1 hls hms (p := s.asked i)
            have hshows : c.stock = stockOf u.shop.shared (s.asked i) := by
              have hsame := Option.some.inj (hrow.symm.trans haccounts.row)
              unfold stockOf
              rw [hrow, hsame]
              rfl
            omega
  · intro hsome hthrew
    obtain ⟨card, u, hfate, ⟨bs, cs, -, hbefore, -⟩, hload, -⟩ := fate_shown hinit hr hdone hthrew
    obtain ⟨ls, hls⟩ := shop_run hbefore
    have hthere := (holds hinit.1 hls).1.conserved.products _ hsome
    obtain ⟨r, hrow⟩ := Option.isSome_iff_exists.mp hthere
    -- a product that is there is never loaded as none
    cases card with
    | none =>
        rw [load_eq (show (tablesOf names items₀ u.shop.shared).products _ = some r from hrow)]
          at hload
        unfold toInt at hload
        split at hload
        · split at hload
          · cases Except.ok.inj hload
          · cases hload
        · cases hload
    | some c =>
        refine ⟨cardJson (some c), ?_⟩
        rcases hfate with rfl | rfl
        · rfl
        · rfl

end

/-! ## A card from before a sale -/

def promptly (lag : ℕ) (s : Site η) : Step → Bool
  | .redis i (.set _) | .redis i (.lostSet _) => s.cache.shared.now ≤ s.seen i + lag
  | _ => true

omit [DecidableEq η] in
/-- What the concrete run checks is the condition of the theorem. -/
theorem promptly_prompt (lag : ℕ) (s : Site η) (l : Step) (h : promptly lag s l = true) :
    Prompt lag s l := by
  rintro i a ttl rfl (rfl | rfl)
  · exact of_decide_eq_true h
  · exact of_decide_eq_true h

def openShop : Site Request where
  shop := shop
  cache := ⟨Cache.noKeys, fun _ => .idle⟩
  asked _ := 0
  answer _ := none
  since _ := 0
  seen _ := 0

/-- Call 0 fills the cache, an order takes two pieces, and call 1 reads the card just in time. -/
def soldMeanwhile : List Step :=
  [.get 0 1, .redis 0 .run, .redis 0 .run, .redis 0 .run, .query 0, .returns 0,
    .redis 0 (.set 300), .redis 0 .run] ++
  (.call 1 (.placeOrder twoPieces) :: runs 1 9).map .shop ++
  [.env (.tick 300000), .get 1 1, .redis 1 .run]

/-- A card is served from the cache after a sale: the stock it shows is the older one. -/
theorem cards_fresh_old : ∃ (s u : Site Request) (json : Json) (c : ProductCard),
    (cards .unrounded Cache.cardCacheOptions id (fun _ => "Desk Lamp") []).exec (promptly 0)
      openShop soldMeanwhile = some s ∧
    s.cache.proc 1 = .done (cardKey 1) (.hit (some json)) ∧ json = cardJson (some c) ∧
    stockOf s.shop.shared 1 = 3 ∧ 3 ≤ c.stock ∧
    (cards .unrounded Cache.cardCacheOptions id (fun _ => "Desk Lamp") []).Through (Prompt 0)
      openShop soldMeanwhile s u ∧ 300000 ≤ u.cache.shared.now + 360000 := by
  have hrun : ∃ (s : Site Request) (json : Json),
      (cards .unrounded Cache.cardCacheOptions id (fun _ => "Desk Lamp") []).exec (promptly 0)
        openShop soldMeanwhile = some s ∧
      s.cache.proc 1 = .done (cardKey 1) (.hit (some json)) ∧
      getCard 1 (.hit (some json)) = .ok json ∧ s.asked 1 = 1 ∧ s.since 1 = 300000 ∧
      stockOf s.shop.shared 1 = 3 := ⟨_, _, rfl, rfl, rfl, rfl, rfl, rfl⟩
  obtain ⟨s, json, hexec, hdone, hok, hasked, hsince, hstock⟩ := hrun
  have hr := Machine.exec_run (promptly_prompt 0) hexec
  have hinit : (cards .unrounded Cache.cardCacheOptions id (fun _ => "Desk Lamp") []).Init
      openShop := ⟨shop_init id, ⟨fun _ => rfl, fun _ => rfl⟩, fun _ => rfl⟩
  obtain ⟨hcard, -⟩ := cards_fresh hinit hr before_nil hdone
  rw [hasked] at hcard
  obtain ⟨c, u, r₀, hjson, hthrough, hrecent, -, -, hless⟩ := hcard json hok
  rw [hstock] at hless
  rw [hsince] at hrecent
  exact ⟨s, u, json, c, hexec, hdone, hjson, hstock, hless, hthrough, hrecent⟩

end Marketplace.Sales
