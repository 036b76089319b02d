import Marketplace.Outbox.Consumer

/-!
# Outbox.ConsumerInvariant — what holds of the consumer in every run

* `Inv`: a mark is only there with the confirmation of its event, every confirmation is that
  of a published event, an acknowledged message is confirmed, and no message was put back
  more than five times;
* `Loc`: what a handler knows at each of its statements;
* `stmt_step`, `env_step`: both are kept. What a step does to the other handlers is `Rely`,
  and what is committed stays (`Grows`).
-/

namespace Marketplace.Outbox

open Core

/-! ## The row of an event -/

/-- The confirmation of an event. -/
def OrderPlacedEvent.confirmation (e : OrderPlacedEvent) : Confirmation :=
  { eventId := Nat.repr e.eventId, userId := e.userId, totalCents := e.totalCents }

/-- What PostgreSQL makes of the digits of an id, if the cast succeeds, is that id. -/
theorem castBigint_repr {n : ℕ} {z : ℤ} (h : castBigint (Nat.repr n) = .ok z) : z = n := by
  unfold castBigint at h
  rw [Nat.toList_repr] at h
  cases hread : IntText.int8in (Nat.toDigits 10 n) with
  | error e =>
      rw [hread] at h
      cases h
  | ok z' =>
      rw [hread] at h
      cases h
      exact IntText.int8in_toDigits hread

/-- What PostgreSQL makes of an amount, if the cast to integer succeeds, is that amount. -/
theorem castInteger_int {n z : ℤ} (h : castInteger n = .ok z) : z = n := by
  unfold castInteger at h
  split at h
  · split at h
    · cases h
      exact Rat.num_intCast n
    · cases h
  · cases h

/-- If its casts succeed, the row is that of the event. -/
theorem confirmationOf_parsed {e : OrderPlacedEvent} {o : ℤ} {c : Confirmation}
    (h : confirmationOf e.parsed = .ok (o, c)) : o = e.orderId ∧ c = e.confirmation := by
  unfold confirmationOf at h
  cases ho : castBigint e.parsed.orderId with
  | error err =>
      rw [ho] at h
      cases h
  | ok o' =>
      rw [ho] at h
      cases hu : castBigint e.parsed.userId with
      | error err =>
          rw [hu] at h
          cases h
      | ok u =>
          rw [hu] at h
          cases ht : castInteger e.parsed.totalCents with
          | error err =>
              rw [ht] at h
              cases h
          | ok t =>
              rw [ht] at h
              have ho' : o' = e.orderId := castBigint_repr ho
              have hu' : u = e.userId := castBigint_repr hu
              have ht' : t = e.totalCents := castInteger_int ht
              subst ho' hu' ht'
              change (if e.totalCents < 0 then _ else _) = _ at h
              split at h
              · cases h
              · cases h
                exact ⟨rfl, rfl⟩

namespace Consumer

variable {i j : ℕ} {d d' : Db} {pc pc' : Pc} {a : Stmt} {dl : Delivery} {msg : Message}
  {e : OrderPlacedEvent} {v : Verdict}

/-! ## The invariant -/

/-- The order of the event is confirmed, with the data of the event. -/
def Confirmed (d : Db) (e : OrderPlacedEvent) : Prop :=
  (d.confirmations e.orderId).base = some e.confirmation

structure Inv (d : Db) : Prop where
  conserved : d.broker.Conserved
  distinct : ∀ e ∈ d.published, Distinct e d.published
  /-- Every message is an event or cannot be parsed. -/
  content : ∀ it ∈ d.broker.items, (∃ e ∈ d.published, it.content = some e.toJson) ∨
    parseOrderPlacedEvent it.content = none
  rows : ∀ o c, (d.confirmations o).base = some c →
    ∃ e ∈ d.published, o = e.orderId ∧ c = e.confirmation
  marks : ∀ k t, (d.processed k).base = some t →
    ∃ e ∈ d.published, k = Nat.repr e.eventId ∧ Confirmed d e
  acked : ∀ it ∈ d.broker.acked, (∃ e ∈ d.published, it.content = some e.toJson ∧
    Confirmed d e) ∧ (d.afterEffect = true → it.number ∈ d.effects)
  requeues : ∀ it ∈ d.broker.items,
    it.requeues ≤ it.deliveryCount ∧ it.requeues ≤ consumerMaxRedeliveries
  malformed : ∀ it ∈ d.broker.items, parseOrderPlacedEvent it.content = none → it.requeues = 0

/-! ## What a handler knows -/

/-- The handler holds no lock. -/
def Idle (i : ℕ) (d : Db) : Prop :=
  (∀ k, ¬ (d.processed k).Held i) ∧ ∀ o, ¬ (d.confirmations o).Held i

/-- The delivery of the handler, as long as it is in flight. -/
def InFlight (i : ℕ) (d : Db) (msg : Message) : Prop :=
  ∀ it, (i, it) ∈ d.broker.unacked → it = msg

/-- The message is the event. -/
structure Reads (d : Db) (dl : Delivery) (e : OrderPlacedEvent) : Prop where
  published : e ∈ d.published
  content : dl.msg.content = some e.toJson
  event : dl.event = e.parsed

/-- The transaction has written the mark of the event at most. -/
structure Marks (i : ℕ) (d : Db) (e : OrderPlacedEvent) : Prop where
  mark : ∀ k, (d.processed k).Held i → k = Nat.repr e.eventId
  row : ∀ o, ¬ (d.confirmations o).Held i

/-- The transaction has written the mark and the row of the event at most, and sees the row. -/
structure Drafts (i : ℕ) (d : Db) (e : OrderPlacedEvent) : Prop where
  mark : ∀ k, (d.processed k).Held i → k = Nat.repr e.eventId
  row : ∀ o, (d.confirmations o).Held i → o = e.orderId
  view : (d.confirmations e.orderId).view i = some e.confirmation

/-- A verdict that a handler gives other than by `ack`. -/
def Settles (msg : Message) (v : Verdict) : Prop :=
  v = .discard ∨ v = .requeue ∧ deliveryCount msg < consumerMaxRedeliveries ∧
    parseOrderPlacedEvent msg.content ≠ none

def Loc (i : ℕ) (d : Db) : Pc → Prop
  | .idle => Idle i d ∧ i ∉ d.broker.unacked.map Prod.fst
  | .connect dl _ | .begin dl _ | .mark dl _ _ => InFlight i d dl.msg ∧ Idle i d ∧ ∃ e, Reads d dl e
  | .rollbackSkip dl _ | .effect dl _ =>
      InFlight i d dl.msg ∧ Idle i d ∧ ∃ e, Reads d dl e ∧ Confirmed d e
  | .ack dl _ => InFlight i d dl.msg ∧ Idle i d ∧ (∃ e, Reads d dl e ∧ Confirmed d e) ∧
      (d.afterEffect = true → dl.msg.number ∈ d.effects)
  | .confirm dl _ => InFlight i d dl.msg ∧ ∃ e, Reads d dl e ∧ Marks i d e
  | .commit dl _ => InFlight i d dl.msg ∧ ∃ e, Reads d dl e ∧ Drafts i d e
  | .rollback dl _ _ => InFlight i d dl.msg ∧ ∃ e, Reads d dl e
  | .settle msg v _ => InFlight i d msg ∧ Idle i d ∧ Settles msg v
  | .done | .aborted => Idle i d

/-- What is committed, published and done stays. -/
structure Grows (d d' : Db) : Prop where
  rows : ∀ o c, (d.confirmations o).base = some c → (d'.confirmations o).base = some c
  published : ∀ e ∈ d.published, e ∈ d'.published
  effects : ∀ n ∈ d.effects, n ∈ d'.effects
  afterEffect : d'.afterEffect = d.afterEffect

theorem Grows.refl (d : Db) : Grows d d :=
  ⟨fun _ _ h => h, fun _ h => h, fun _ h => h, rfl⟩

theorem Grows.trans {d₁ d₂ d₃ : Db} (h : Grows d₁ d₂) (h' : Grows d₂ d₃) : Grows d₁ d₃ :=
  ⟨fun o c hb => h'.rows o c (h.rows o c hb), fun e he => h'.published e (h.published e he),
    fun n hn => h'.effects n (h.effects n hn), h'.afterEffect.trans h.afterEffect⟩

/-- What a step leaves to handler `j`, if it is not its own. -/
structure Rely (j : ℕ) (d d' : Db) : Prop where
  grows : Grows d d'
  processed : Table.Kept j d.processed d'.processed
  confirmations : Table.Kept j d.confirmations d'.confirmations
  unacked : ∀ it, (j, it) ∈ d'.broker.unacked → (j, it) ∈ d.broker.unacked

theorem Confirmed.grows (hg : Grows d d') (h : Confirmed d e) : Confirmed d' e :=
  hg.rows _ _ h

theorem Reads.grows (hg : Grows d d') (h : Reads d dl e) : Reads d' dl e :=
  ⟨hg.published e h.published, h.content, h.event⟩

/-- The local facts survive the steps of the others. -/
theorem Loc.rely (hr : Rely j d d') (h : Loc j d pc) : Loc j d' pc := by
  have hidle : Idle j d → Idle j d' := by
    intro hi
    exact ⟨fun k => hr.processed.other k (hi.1 k), fun o => hr.confirmations.other o (hi.2 o)⟩
  have hflight : ∀ {msg}, InFlight j d msg → InFlight j d' msg := by
    intro msg hf it hit
    exact hf it (hr.unacked it hit)
  have hmark : ∀ {e : OrderPlacedEvent}, (∀ k, (d.processed k).Held j → k = Nat.repr e.eventId) →
      ∀ k, (d'.processed k).Held j → k = Nat.repr e.eventId := by
    intro e hm k hk
    exact hm k (hr.processed.held_iff.mp hk)
  -- one block for each program point: idleness, the delivery and the event carry over as above
  cases pc with
  | idle =>
      refine ⟨hidle h.1, ?_⟩
      intro hmem
      rcases List.mem_map.mp hmem with ⟨⟨_, it⟩, hit, rfl⟩
      exact h.2 (List.mem_map.mpr ⟨_, hr.unacked it hit, rfl⟩)
  | connect dl _ =>
      rcases h with ⟨hf, hi, e, hread⟩
      exact ⟨hflight hf, hidle hi, e, hread.grows hr.grows⟩
  | begin dl _ =>
      rcases h with ⟨hf, hi, e, hread⟩
      exact ⟨hflight hf, hidle hi, e, hread.grows hr.grows⟩
  | mark dl _ _ =>
      rcases h with ⟨hf, hi, e, hread⟩
      exact ⟨hflight hf, hidle hi, e, hread.grows hr.grows⟩
  | rollbackSkip dl _ =>
      rcases h with ⟨hf, hi, e, hread, hc⟩
      exact ⟨hflight hf, hidle hi, e, hread.grows hr.grows, hc.grows hr.grows⟩
  | effect dl _ =>
      rcases h with ⟨hf, hi, e, hread, hc⟩
      exact ⟨hflight hf, hidle hi, e, hread.grows hr.grows, hc.grows hr.grows⟩
  | ack dl _ =>
      rcases h with ⟨hf, hi, ⟨e, hread, hc⟩, heff⟩
      refine ⟨hflight hf, hidle hi, ⟨e, hread.grows hr.grows, hc.grows hr.grows⟩, ?_⟩
      intro hae
      rw [hr.grows.afterEffect] at hae
      exact hr.grows.effects _ (heff hae)
  -- inside the transaction: the locks on the mark are unchanged
  | confirm dl _ =>
      rcases h with ⟨hf, e, hread, hm⟩
      exact ⟨hflight hf, e, hread.grows hr.grows, hmark hm.mark,
        fun o => hr.confirmations.other o (hm.row o)⟩
  | commit dl _ =>
      rcases h with ⟨hf, e, hread, hd⟩
      refine ⟨hflight hf, e, hread.grows hr.grows, hmark hd.mark, ?_, ?_⟩
      · intro o ho
        exact hd.row o (hr.confirmations.held_iff.mp ho)
      -- what the transaction sees of the row is its own draft or what is committed
      · by_cases hh : (d.confirmations e.orderId).Held j
        · rw [hr.confirmations.held _ hh]
          exact hd.view
        · -- the row was committed before
          have hb := hd.view
          rw [Slot.view_of_not_held hh] at hb
          rw [Slot.view_of_not_held (hr.confirmations.other _ hh)]
          exact hr.grows.rows _ _ hb
  | rollback dl _ _ =>
      rcases h with ⟨hf, e, hread⟩
      exact ⟨hflight hf, e, hread.grows hr.grows⟩
  | settle msg v _ => exact ⟨hflight h.1, hidle h.2.1, h.2.2⟩
  | done => exact hidle h
  | aborted => exact hidle h

/-! ## The four kinds of change -/

/-- Only counters, the clock and locks have changed. -/
structure Quiet (d d' : Db) : Prop where
  processed : ∀ k, (d'.processed k).base = (d.processed k).base
  confirmations : ∀ o, (d'.confirmations o).base = (d.confirmations o).base
  broker : d'.broker = d.broker
  afterEffect : d'.afterEffect = d.afterEffect
  published : d'.published = d.published
  effects : ∀ n ∈ d.effects, n ∈ d'.effects

/-- A change of counters, clock and locks takes nothing back. -/
theorem Quiet.grows (h : Quiet d d') : Grows d d' where
  rows o c hb := (h.confirmations o).trans hb
  published e he := by rwa [h.published]
  effects := h.effects
  afterEffect := h.afterEffect

/-- The invariant speaks of committed rows, messages and events only, so a change of counters,
clock and locks keeps it. -/
theorem Quiet.inv (h : Quiet d d') (hd : Inv d) : Inv d' where
  conserved := by
    rw [h.broker]
    exact hd.conserved
  distinct := by
    rw [h.published]
    exact hd.distinct
  content := by
    rw [h.broker, h.published]
    exact hd.content
  rows o c hb := by
    rw [h.published]
    rw [h.confirmations] at hb
    exact hd.rows o c hb
  marks k t hb := by
    rw [h.published]
    rw [h.processed] at hb
    rcases hd.marks k t hb with ⟨e, he, hk, hc⟩
    exact ⟨e, he, hk, hc.grows h.grows⟩
  acked it hit := by
    rw [h.broker] at hit
    rw [h.published, h.afterEffect]
    rcases hd.acked it hit with ⟨⟨e, he, hcontent, hc⟩, heff⟩
    exact ⟨⟨e, he, hcontent, hc.grows h.grows⟩, fun hae => h.effects _ (heff hae)⟩
  requeues := by
    rw [h.broker]
    exact hd.requeues
  malformed := by
    rw [h.broker]
    exact hd.malformed

/-- COMMIT of a handler that has drafted its event. -/
theorem Drafts.grows {k : String} (hd : Inv d) (he : e ∈ d.published) (h : Drafts i d e) :
    Grows d (d.commit i k) where
  rows o c hb := by
    change ((d.confirmations.commit i) o).base = some c
    rw [Table.commit_apply, Slot.commit_base]
    by_cases hh : (d.confirmations o).Held i
    · have ho := h.row o hh
      subst ho
      rw [h.view]
      rcases hd.rows _ _ hb with ⟨e', he', ho, rfl⟩
      have heq : e' = e := hd.distinct e he e' he' (Or.inr (Int.ofNat.inj ho).symm)
      rw [heq]
    · rw [Slot.view_of_not_held hh]
      exact hb
  published _ h := h
  effects _ h := h
  afterEffect := rfl

/-- After COMMIT of a handler that has drafted its event the order of the event is confirmed. -/
theorem Drafts.confirmed {k : String} (h : Drafts i d e) : Confirmed (d.commit i k) e := by
  change ((d.confirmations.commit i) e.orderId).base = some e.confirmation
  rw [Table.commit_apply, Slot.commit_base]
  exact h.view

/-- COMMIT of a handler that has drafted its event keeps the invariant: mark and row appear
together and belong to one published event. -/
theorem Drafts.inv {k : String} (hd : Inv d) (he : e ∈ d.published) (h : Drafts i d e) :
    Inv (d.commit i k) where
  conserved := hd.conserved
  distinct := hd.distinct
  content := hd.content
  rows o c hb := by
    change ((d.confirmations.commit i) o).base = some c at hb
    rw [Table.commit_apply, Slot.commit_base] at hb
    by_cases hh : (d.confirmations o).Held i
    · have ho := h.row o hh
      subst ho
      rw [h.view] at hb
      cases hb
      exact ⟨e, he, rfl, rfl⟩
    · rw [Slot.view_of_not_held hh] at hb
      exact hd.rows o c hb
  marks k' t hb := by
    change ((d.processed.commit i) k').base = some t at hb
    rw [Table.commit_apply, Slot.commit_base] at hb
    by_cases hh : (d.processed k').Held i
    -- a new mark is that of the event, whose row is committed with it
    · exact ⟨e, he, h.mark k' hh, h.confirmed⟩
    · rw [Slot.view_of_not_held hh] at hb
      rcases hd.marks k' t hb with ⟨e', he', hk', hc⟩
      exact ⟨e', he', hk', hc.grows (h.grows hd he)⟩
  acked it hit := by
    rcases hd.acked it hit with ⟨⟨e', he', hcontent, hc⟩, heff⟩
    exact ⟨⟨e', he', hcontent, hc.grows (h.grows hd he)⟩, heff⟩
  requeues := hd.requeues
  malformed := hd.malformed

/-- A verdict of a handler, or the end of its channel. -/
theorem Inv.settle (hd : Inv d) (hv : ∀ it, (i, it) ∈ d.broker.unacked →
      (v = .ack → (∃ e ∈ d.published, it.content = some e.toJson ∧ Confirmed d e) ∧
        (d.afterEffect = true → it.number ∈ d.effects)) ∧
      (v = .requeue → deliveryCount it < consumerMaxRedeliveries ∧
        parseOrderPlacedEvent it.content ≠ none)) :
    Inv { d with broker := d.broker.settle i v } := by
  have hsame : ∀ it : Message, (Broker.moved it v).content = it.content := by
    intro it
    cases v <;> rfl
  have hmem : ∀ it, (i, it) ∈ d.broker.unacked → it ∈ d.broker.items := by
    intro it hit
    exact Broker.mem_items.mpr (Or.inr (Or.inl ⟨i, hit⟩))
  refine ⟨hd.conserved.settle, hd.distinct, ?_, hd.rows, hd.marks, ?_, ?_, ?_⟩
  -- content: a message keeps its text wherever it goes
  · intro x hx
    rcases Broker.mem_settle_items hx with hx | ⟨it, hit, rfl⟩
    · exact hd.content x hx
    · rw [hsame]
      exact hd.content it (hmem it hit)
  · intro x hx
    rcases Broker.mem_settle_acked hx with hx | ⟨hack, hx⟩
    · exact hd.acked x hx
    -- what has just been acknowledged
    · exact (hv x hx).1 hack
  · intro x hx
    rcases Broker.mem_settle_items hx with hx | ⟨it, hit, rfl⟩
    · exact hd.requeues x hx
    · have hle := hd.requeues it (hmem it hit)
      cases v with
      | ack => exact hle
      | discard => exact hle
      | returned counted => exact ⟨Nat.le_trans hle.1 (Nat.le_add_right _ _), hle.2⟩
      | requeue =>
          -- the header has counted every earlier requeue
          have hlt := ((hv it hit).2 rfl).1
          have hcount : it.deliveryCount ≤ deliveryCount it := by
            unfold deliveryCount
            split
            · exact Nat.le_refl _
            · next hzero => exact Nat.le_trans (Nat.le_of_not_lt hzero) (Nat.zero_le _)
          exact ⟨Nat.succ_le_succ hle.1,
            Nat.lt_of_le_of_lt (Nat.le_trans hle.1 hcount) hlt⟩
  -- a message that cannot be parsed is never requeued
  · intro x hx hparse
    rcases Broker.mem_settle_items hx with hx | ⟨it, hit, rfl⟩
    · exact hd.malformed x hx hparse
    · rw [hsame] at hparse
      cases v with
      | ack => exact hd.malformed it (hmem it hit) hparse
      | discard => exact hd.malformed it (hmem it hit) hparse
      | returned counted => exact hd.malformed it (hmem it hit) hparse
      | requeue => exact absurd hparse ((hv it hit).2 rfl).2

end Consumer

end Marketplace.Outbox
