import Marketplace.Outbox.ConsumerSafety

/-!
# Outbox.Confirmations — where a message is, and which orders are confirmed

What one statement of a handler does to the queue and to the committed confirmations
(`Moves`): it moves one message at most, and its COMMIT confirms one order at most. A message
that is an event stays in the broker until the order is confirmed (`Inv.underway`).
-/

namespace Marketplace.Outbox.Consumer

open Core

variable {i : ℕ} {d d₁ d' : Db} {pc pc' : Pc} {a : Stmt} {e : OrderPlacedEvent} {ev : Env}

/-! ## One statement -/

/-- The committed confirmations are the same. -/
def SameRows (d d' : Db) : Prop := ∀ o, (d'.confirmations o).base = (d.confirmations o).base

structure Moves (i : ℕ) (d d' : Db) : Prop where
  published : d'.published = d.published
  broker : d'.broker = d.broker ∨ (∃ n msg, d.broker.deliver i n = some (d'.broker, msg)) ∨
    ∃ v, d'.broker = d.broker.settle i v
  rows : SameRows d d' ∨ ∃ e ∈ d.published, Drafts i d e ∧
    d'.confirmations = d.confirmations.commit i

theorem Moves.of_same (hpublished : d'.published = d.published) (hbroker : d'.broker = d.broker)
    (hrows : SameRows d d') : Moves i d d' :=
  ⟨hpublished, Or.inl hbroker, Or.inl hrows⟩

/-- A statement that only counts moves no message and confirms no order. -/
theorem Moves.of_counts (hc : Counts d d') : Moves i d d' :=
  Moves.of_same hc.published hc.broker fun o => by rw [hc.confirmations]

theorem Moves.refl (i : ℕ) (d : Db) : Moves i d d := Moves.of_counts (Counts.refl d)

/-- Counting changes nothing of it. -/
theorem Moves.counts (h : Moves i d d₁) (hc : Counts d₁ d') : Moves i d d' where
  published := hc.published.trans h.published
  broker := by
    rw [hc.broker]
    exact h.broker
  rows := by
    rw [hc.confirmations]
    rcases h.rows with hsame | hcommit
    · left
      intro o
      rw [hc.confirmations]
      exact hsame o
    · exact Or.inr hcommit

theorem Moves.rollback (i : ℕ) (d : Db) : Moves i d (d.rollback i) :=
  Moves.of_same rfl rfl fun _ => Slot.rollback_base

theorem Moves.commit {k : String} (he : e ∈ d.published) (h : Drafts i d e) :
    Moves i d (d.commit i k) :=
  ⟨rfl, Or.inl rfl, Or.inr ⟨e, he, h, rfl⟩⟩

/-- The INSERT ... ON CONFLICT DO NOTHING of a confirmation changes no committed row: its row is a
draft until COMMIT. -/
theorem insertNew_rows {o : ℤ} {row : Confirmation} {T : Table ℕ ℤ Confirmation}
    {inserted : Bool} (h : d.confirmations.insertNew i o row = some (T, inserted)) :
    SameRows d { d with confirmations := T } := by
  intro o'
  rcases Table.insertNew_cases h with ⟨-, ⟨rfl, -, -⟩ | ⟨-, -, rfl⟩⟩
  · rfl
  · exact Table.put_base

/-- What one statement of a handler does to orders and messages: one COMMIT can confirm one order,
and one statement moves one message at most. -/
theorem stmt_moves (hl : Loc i d pc) (h : stmt i d pc a = some (d', pc')) : Moves i d d' := by
  cases stmt_does h with
  | receives hb =>
      rename_i n b msg
      have hm : Moves i d { d with broker := b } :=
        ⟨rfl, Or.inr (Or.inl ⟨n, msg, hb⟩), Or.inl fun _ => rfl⟩
      exact hm.counts receive_counts
  | connects | begins | refuses _ | throws _ | settleLost => exact Moves.refl i d
  -- the counters of a failed attempt
  | noConnection => exact Moves.of_counts attemptFailed_counts
  | marks _ | effect => exact Moves.of_same rfl rfl fun _ => rfl
  | skips | aborts _ => exact Moves.rollback i d
  | confirms _ hT => exact Moves.of_same rfl rfl (insertNew_rows hT)
  | commits | commitsUnheard =>
      obtain ⟨-, e, hread, hdraft⟩ := hl
      exact Moves.commit hread.published hdraft
  | rollsBack => exact (Moves.rollback i d).counts attemptFailed_counts
  | effectFails => exact Moves.of_counts handleError_counts
  -- the message goes to `acked` and the handler counts it
  | acks =>
      have hm : Moves i d { d with broker := d.broker.settle i .ack } :=
        ⟨rfl, Or.inr (Or.inr ⟨.ack, rfl⟩), Or.inl fun _ => rfl⟩
      exact hm.counts countApplied_counts.settled
  | ackLost => exact Moves.of_counts countApplied_counts
  | ackThrows => exact (Moves.of_counts countApplied_counts).counts handleError_counts
  | settles => exact ⟨rfl, Or.inr (Or.inr ⟨_, rfl⟩), Or.inl fun _ => rfl⟩

/-! ## Messages -/

/-- No text gets lost. -/
def KeepsContent (d d' : Db) : Prop :=
  ∀ it ∈ d.broker.items, ∃ it' ∈ d'.broker.items, it'.content = it.content

/-- Delivering a message and settling it move it from one place to another, and its text goes with
it. -/
theorem Moves.content (h : Moves i d d') : KeepsContent d d' := by
  intro it hit
  rcases h.broker with heq | ⟨n, msg, hb⟩ | ⟨v, heq⟩
  · rw [heq]
    exact ⟨it, hit, rfl⟩
  -- a delivered message stays among the items of the broker
  · exact ⟨it, (Broker.deliver_items hb).mpr hit, rfl⟩
  · rw [heq]
    exact Broker.settle_content hit

/-- The others move messages too, and confirm nothing. -/
theorem env_content (h : env d ev = some d') : KeepsContent d d' ∧ SameRows d d' := by
  cases ev with
  | publish e =>
      simp only [env] at h
      split at h
      · cases h
        exact ⟨fun it hit => ⟨it, Broker.mem_publish hit, rfl⟩, fun _ => rfl⟩
      · cases h
  | publishMalformed m =>
      simp only [env] at h
      split at h
      · cases h
        exact ⟨fun it hit => ⟨it, Broker.mem_publish hit, rfl⟩, fun _ => rfl⟩
      · cases h
  | returned j counted =>
      cases h
      exact ⟨fun _ hit => Broker.settle_content hit, fun _ => rfl⟩
  | purge cutoff keys =>
      simp only [env] at h
      split at h
      · cases h
        exact ⟨fun it hit => ⟨it, hit, rfl⟩, fun _ => rfl⟩
      · cases h
  | tick dt =>
      cases h
      exact ⟨fun it hit => ⟨it, hit, rfl⟩, fun _ => rfl⟩

/-- Of what the other parties do, only the relay's publish of an event adds to the published
events. -/
theorem env_published (h : env d ev = some d') (hev : ∀ e, ev ≠ .publish e) :
    d'.published = d.published := by
  cases ev with
  | publish e => exact absurd rfl (hev e)
  | publishMalformed m =>
      simp only [env] at h
      split at h
      · cases h
        rfl
      · cases h
  | returned j counted =>
      cases h
      rfl
  | purge cutoff keys =>
      simp only [env] at h
      split at h
      · cases h
        rfl
      · cases h
  | tick dt =>
      cases h
      rfl

/-- A publish puts one message with the text of the event into the work queue; the event counts as
published from then on, also if it was before. -/
theorem env_publish (h : env d (.publish e) = some d') :
    d'.broker = d.broker.publish (some e.toJson) ∧
    ∀ e', e' ∈ d'.published ↔ e' ∈ d.published ∨ e' = e := by
  simp only [env] at h
  split at h
  · cases h
    refine ⟨rfl, ?_⟩
    intro e'
    dsimp only
    -- the relay may send one event twice: the second copy adds no event
    split
    · next hmem =>
        constructor
        · exact Or.inl
        · rintro (h | rfl)
          · exact h
          · exact hmem
    · rw [List.mem_append, List.mem_singleton]
  · cases h

/-- The event is in the work queue, in flight or in the dead-letter queue. -/
def Underway (d : Db) (e : OrderPlacedEvent) : Prop :=
  ∃ it, it.content = some e.toJson ∧
    (it ∈ d.broker.queue ∨ (∃ i, (i, it) ∈ d.broker.unacked) ∨ it ∈ d.broker.dlq)

/-- A message leaves the broker when its order is confirmed, and not before. -/
theorem Inv.underway {it : Message} (hinv : Inv d) (he : e ∈ d.published)
    (hit : it ∈ d.broker.items) (hcontent : it.content = some e.toJson) :
    Underway d e ∨ Confirmed d e := by
  rcases Broker.mem_items.mp hit with h | h | h | h
  -- in the work queue, in flight, or in the dead-letter queue
  · exact Or.inl ⟨it, hcontent, Or.inl h⟩
  · exact Or.inl ⟨it, hcontent, Or.inr (Or.inl h)⟩
  · exact Or.inl ⟨it, hcontent, Or.inr (Or.inr h)⟩
  · right
    rcases (hinv.acked it h).1 with ⟨e', he', hcontent', hconfirmed⟩
    -- the text of an event determines its id
    have hparsed : e'.parsed = e.parsed := by
      have hparse := parse_toJson e'
      rw [← hcontent', hcontent, parse_toJson] at hparse
      exact (Option.some.inj hparse).symm
    have hid : e'.eventId = e.eventId := repr_injective (congrArg ParsedEvent.eventId hparsed)
    have heq : e' = e := hinv.distinct e he e' he' (Or.inl hid)
    rwa [heq] at hconfirmed

/-! ## Confirmations -/

/-- A statement confirms one order that was not confirmed, or none. -/
theorem Moves.confirms (hinv : Inv d) (h : Moves i d d') :
    SameRows d d' ∨ ∃ e ∈ d.published, (d.confirmations e.orderId).base = none ∧
      ∀ o, (d'.confirmations o).base =
        Function.update (fun o => (d.confirmations o).base) e.orderId (some e.confirmation) o := by
  rcases h.rows with hsame | ⟨e, he, hdraft, hcommit⟩
  · exact Or.inl hsame
  · have hbase : ∀ o, (d'.confirmations o).base =
        Function.update (fun o => (d.confirmations o).base) e.orderId (some e.confirmation) o := by
      intro o
      rw [hcommit, Table.commit_apply, Slot.commit_base]
      by_cases ho : o = e.orderId
      · subst ho
        rw [Function.update_self]
        exact hdraft.view
      · rw [Function.update_of_ne ho, Slot.view_of_not_held fun hh => ho (hdraft.row o hh)]
    cases hb : (d.confirmations e.orderId).base with
    | none => exact Or.inr ⟨e, he, hb, hbase⟩
    | some c =>
        left
        intro o
        rw [hbase o]
        by_cases ho : o = e.orderId
        · subst ho
          rcases hinv.rows _ c hb with ⟨e', he', hid, rfl⟩
          have heq : e' = e := hinv.distinct e he e' he' (Or.inr (Int.ofNat.inj hid).symm)
          rw [Function.update_self, hb, heq]
        · rw [Function.update_of_ne ho]

end Marketplace.Outbox.Consumer
