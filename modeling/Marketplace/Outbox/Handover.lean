import Marketplace.Outbox.Confirmations
import Marketplace.Outbox.Delivery
import Marketplace.Outbox.Payloads

/-!
# Outbox.Handover — from the outbox to the queue to the confirmation

What the relay, the broker and the consumer know of each other (`Linked`), in every run of
them together:

* a row and a message carry what was inserted, so what arrives is the event of a row;
* a row is marked published only after its event has arrived;
* a message leaves the broker only after its order is confirmed.

So a row that was inserted is never without one of the three (`Linked.kept`).
-/

namespace Marketplace.Outbox.Delivery

open Core Auth Orders

variable {s t : St} {l : Label} {row : OutboxInsert} {rows : List OutboxInsert} {r : OutboxRow}
  {i n : ℕ}

/-! ## What an inserted row is -/

/-- The version of a row that was inserted, apart from what the relay notes in it. -/
def IsRow (row : OutboxInsert) (r : OutboxRow) : Prop :=
  r = { toOutboxRow row with
    publishedAt := r.publishedAt, attempts := r.attempts, lastError := r.lastError }

def Inserted (rows : List OutboxInsert) (r : OutboxRow) : Prop := ∃ row ∈ rows, IsRow row r

/-- The relay never changes the id of a row. -/
theorem IsRow.id (h : IsRow row r) : r.id = row.id := congrArg OutboxRow.id h

/-- Nor its payload, which stays the event of the order. -/
theorem IsRow.payload (h : IsRow row r) : r.payload = row.payload.toJson :=
  congrArg OutboxRow.payload h

/-- What the relay writes into a row leaves it a row that was inserted. -/
theorem Inserted.stable (rows : List OutboxInsert) : Relay.Stable (Inserted rows) where
  published at₀ r := by
    rintro ⟨row, hrow, hr⟩
    refine ⟨row, hrow, ?_⟩
    unfold IsRow
    rw [hr]
    rfl
  failed message r := by
    rintro ⟨row, hrow, hr⟩
    refine ⟨row, hrow, ?_⟩
    unfold IsRow
    rw [hr]
    rfl

/-! ## The links -/

/-- The outbox row is there, pending or parked. -/
def Unpublished (s : St) (row : OutboxInsert) : Prop :=
  ∃ r, (s.relay.shared.outbox row.id).base = some r ∧ r.publishedAt = none

structure Linked (s : St) : Prop where
  relay : Relay.machine.Reachable s.relay
  consumer : Consumer.machine.Reachable s.consumer
  inserted : s.relay.shared.inserted = s.rows.map OutboxInsert.id
  ids : ∀ row ∈ s.rows, row.payload.eventId = row.id
  distinct : ∀ e ∈ s.rows.map OutboxInsert.payload,
    Consumer.Distinct e (s.rows.map OutboxInsert.payload)
  carried : Relay.Carried (Inserted s.rows) s.relay
  published : ∀ e ∈ s.consumer.shared.published, e ∈ s.rows.map OutboxInsert.payload
  /-- The broker has what it has accepted. -/
  arrived : ∀ n send, s.relay.shared.sends n = some send → send.accepted = true →
    ∃ row ∈ s.rows, row.id = send.row.id ∧ row.payload ∈ s.consumer.shared.published
  messages : ∀ e ∈ s.consumer.shared.published,
    ∃ it ∈ s.consumer.shared.broker.items, it.content = some e.toJson
  waiting : ∀ row ∈ s.rows, Unpublished s row ∨ row.payload ∈ s.consumer.shared.published

/-- Rows of one id have one event. -/
theorem Linked.payload_eq (h : Linked s) {row row' : OutboxInsert} (hrow : row ∈ s.rows)
    (hrow' : row' ∈ s.rows) (hid : row.id = row'.id) : row.payload = row'.payload := by
  refine h.distinct row'.payload (List.mem_map_of_mem hrow') row.payload
    (List.mem_map_of_mem hrow) (Or.inl ?_)
  rw [h.ids row hrow, h.ids row' hrow', hid]

/-- A row that was inserted waits in the outbox, or its event is in the broker, or its order is
confirmed. -/
theorem Linked.kept (h : Linked s) (hrow : row ∈ s.rows) :
    Unpublished s row ∨ Consumer.Underway s.consumer.shared row.payload ∨
      Consumer.Confirmed s.consumer.shared row.payload := by
  rcases h.waiting row hrow with hwait | hpub
  · exact Or.inl hwait
  · rcases h.messages _ hpub with ⟨it, hit, hcontent⟩
    exact Or.inr ((Consumer.holds h.consumer).1.underway hpub hit hcontent)

/-! ## Steps of the relay -/

/-- What was published and is in the table had arrived. -/
theorem waiting_of_published {d : Relay.Db} {published : List OrderPlacedEvent}
    (hinv : Relay.Inv d)
    (hids : ∀ row ∈ rows, ∀ row' ∈ rows, row.id = row'.id → row.payload = row'.payload)
    (harrived : ∀ n send, d.sends n = some send → send.accepted = true →
      ∃ row ∈ rows, row.id = send.row.id ∧ row.payload ∈ published)
    (hrow : row ∈ rows) (hr : (d.outbox row.id).base = some r) :
    (∃ r, (d.outbox row.id).base = some r ∧ r.publishedAt = none) ∨ row.payload ∈ published := by
  by_cases hnone : r.publishedAt = none
  · exact Or.inl ⟨r, hr, hnone⟩
  · right
    rcases hinv.published row.id r hr hnone with ⟨p, n, send, hsend, -, hid, hseen⟩
    rcases harrived n send hsend (hinv.accepted n send hsend hseen) with ⟨row', hrow', hid', hp⟩
    rwa [hids row hrow row' hrow' (hid.symm.trans hid'.symm)]

/-- A step of the relay that takes no message to the broker and deletes no pending row. -/
theorem Linked.relayStep {rl : Relay.Label} {w : Relay.St} (h : Linked s)
    (hn : Relay.machine.next s.relay rl = some w) (hinsert : ∀ r, rl ≠ .env (.insert r))
    (hinserted : w.shared.inserted = s.relay.shared.inserted)
    (haccepted : ∀ n x', w.shared.sends n = some x' → x'.accepted = true →
      ∃ x, s.relay.shared.sends n = some x ∧ x.accepted = true ∧ x'.row = x.row)
    (hrows : ∀ k r, (s.relay.shared.outbox k).base = some r → r.publishedAt = none →
      (w.shared.outbox k).base.isSome) : Linked { s with relay := w } := by
  have hreach : Relay.machine.Reachable w := h.relay.next hn
  have harrived : ∀ n x, w.shared.sends n = some x → x.accepted = true →
      ∃ row ∈ s.rows, row.id = x.row.id ∧ row.payload ∈ s.consumer.shared.published := by
    intro n x' hx' hacc'
    rcases haccepted n x' hx' hacc' with ⟨x, hx, hacc, hrow⟩
    rw [hrow]
    exact h.arrived n x hx hacc
  refine
    { relay := hreach
      consumer := h.consumer
      inserted := hinserted.trans h.inserted
      ids := h.ids
      distinct := h.distinct
      carried := h.carried.next (Inserted.stable _) (fun r hr => absurd hr (hinsert r)) hn
      published := h.published
      arrived := harrived
      messages := h.messages
      waiting := ?_ }
  intro row hrow
  rcases h.waiting row hrow with ⟨r, hr, hnone⟩ | hpub
  · rcases Option.isSome_iff_exists.mp (hrows row.id r hr hnone) with ⟨r', hr'⟩
    exact waiting_of_published (Relay.holds_of_reachable hreach).1
      (fun a ha b hb => h.payload_eq ha hb) harrived hrow hr'
  · exact Or.inr hpub

/-- A statement of a relay pass keeps the links: no pass takes a message back or deletes a row. -/
theorem Linked.relay_call {a : Relay.Stmt} {w : Relay.St} (h : Linked s)
    (hn : Relay.machine.next s.relay (.call i a) = some w) : Linked { s with relay := w } := by
  have hholds := Relay.holds_of_reachable h.relay
  rcases Procs.next_call hn with ⟨d, p, hst, hw⟩
  have hkeeps := (Relay.stmt_effect hholds.1 (hholds.2 i) hst).keeps
  refine h.relayStep hn (fun r hr => by cases hr) ?_ ?_ ?_
  · rw [hw]
    exact hkeeps.inserted
  · rw [hw]
    exact hkeeps.accepted
  · rw [hw]
    intro k r hr _
    exact hkeeps.rows k (by rw [hr]; rfl)

/-- The pass hears what became of a message. -/
theorem Linked.relay_heard {e : Relay.Env} {w : Relay.St} (h : Linked s)
    (he : (∃ n, e = .confirm n) ∨ ∃ n message, e = .reject n message)
    (hn : Relay.machine.next s.relay (.env e) = some w) : Linked { s with relay := w } := by
  rcases Procs.next_env hn with ⟨d, hd, hw⟩
  -- both events change one message, and of it only what the pass has seen
  have hsend : ∃ n x seen, s.relay.shared.sends n = some x ∧
      d = Relay.setSend s.relay.shared n { x with seen := seen } := by
    rcases he with ⟨n, rfl⟩ | ⟨n, message, rfl⟩
    · simp only [Relay.procs, Relay.env, Option.bind_eq_some_iff] at hd
      rcases hd with ⟨x, hx, hd⟩
      split at hd
      · cases hd
        exact ⟨n, x, _, hx, rfl⟩
      · cases hd
    · simp only [Relay.procs, Relay.env, Option.bind_eq_some_iff] at hd
      rcases hd with ⟨x, hx, hd⟩
      split at hd
      · cases hd
        exact ⟨n, x, _, hx, rfl⟩
      · cases hd
  rcases hsend with ⟨n, x, seen, hx, rfl⟩
  refine h.relayStep hn ?_ ?_ ?_ ?_
  · rintro r hr
    cases hr
    rcases he with ⟨n, hn⟩ | ⟨n, message, hn⟩
    · cases hn
    · cases hn
  -- the rows are as before
  · rw [hw]
    rfl
  · rw [hw]
    intro m x' hx' hacc'
    change Function.update s.relay.shared.sends n _ m = some x' at hx'
    by_cases hm : m = n
    · subst hm
      rw [Function.update_self] at hx'
      cases hx'
      exact ⟨x, hx, hacc', rfl⟩
    · rw [Function.update_of_ne hm] at hx'
      exact ⟨x', hx', hacc', rfl⟩
  · rw [hw]
    intro k r hr _
    change (s.relay.shared.outbox k).base.isSome
    rw [hr]
    rfl

/-- purgeOutbox deletes published rows, with whatever cutoff. -/
theorem Linked.relay_purge {cutoff : ℕ} {ids : List EventId} {w : Relay.St} (h : Linked s)
    (hn : Relay.machine.next s.relay (.env (.purge cutoff ids)) = some w) :
    Linked { s with relay := w } := by
  rcases Procs.next_env hn with ⟨d, hd, hw⟩
  rcases Relay.env_purge hd with ⟨hall, rfl⟩
  refine h.relayStep hn (fun r hr => by cases hr) ?_ ?_ ?_
  · rw [hw]
  · rw [hw]
    intro m x hx hacc
    exact ⟨x, hx, hacc, rfl⟩
  · rw [hw]
    intro k r hr hnone
    have hk : k ∉ ids := by
      intro hk
      rcases hall k hk with ⟨-, r', hr', t, ht, -⟩
      rw [hr] at hr'
      cases hr'
      rw [hnone] at ht
      cases ht
    change (if k ∈ ids then _ else s.relay.shared.outbox k).base.isSome
    rw [if_neg hk, hr]
    rfl

/-- Time changes no row and no message of the relay. -/
theorem Linked.relay_tick {dt : ℕ} {w : Relay.St} (h : Linked s)
    (hn : Relay.machine.next s.relay (.env (.tick dt)) = some w) : Linked { s with relay := w } := by
  rcases Procs.next_env hn with ⟨d, hd, hw⟩
  cases hd
  refine h.relayStep hn (fun r hr => by cases hr) ?_ ?_ ?_
  · rw [hw]
  · rw [hw]
    intro m x hx hacc
    exact ⟨x, hx, hacc, rfl⟩
  · rw [hw]
    intro k r hr _
    change (s.relay.shared.outbox k).base.isSome
    rw [hr]
    rfl

/-! ## Steps of the consumer -/

/-- A step of the consumer that publishes no event. -/
theorem Linked.consumerStep {cl : Consumer.Label} {w : Consumer.St} {acceptedAt : ℕ → ℕ}
    {markedAt : String → Option ℕ} (h : Linked s)
    (hn : Consumer.machine.next s.consumer cl = some w)
    (hpublished : w.shared.published = s.consumer.shared.published)
    (hcontent : Consumer.KeepsContent s.consumer.shared w.shared) :
    Linked { s with consumer := w, acceptedAt := acceptedAt, markedAt := markedAt } where
  relay := h.relay
  consumer := h.consumer.next hn
  inserted := h.inserted
  ids := h.ids
  distinct := h.distinct
  carried := h.carried
  published := by
    change ∀ e ∈ w.shared.published, _
    rw [hpublished]
    exact h.published
  arrived := by
    change ∀ n send, _ → _ → ∃ row ∈ s.rows, _ ∧ row.payload ∈ w.shared.published
    rw [hpublished]
    exact h.arrived
  messages := by
    change ∀ e ∈ w.shared.published, ∃ it ∈ w.shared.broker.items, _
    rw [hpublished]
    intro e he
    rcases h.messages e he with ⟨it, hit, htext⟩
    rcases hcontent it hit with ⟨it', hit', heq⟩
    exact ⟨it', hit', heq.trans htext⟩
  waiting := by
    change ∀ row ∈ s.rows, _ ∨ row.payload ∈ w.shared.published
    rw [hpublished]
    exact h.waiting

/-- A statement of a handler keeps the links: it publishes nothing, and the texts of the messages
stay. -/
theorem Linked.consumer_call {a : Consumer.Stmt} {w : Consumer.St} {markedAt : String → Option ℕ}
    (h : Linked s) (hn : Consumer.machine.next s.consumer (.call i a) = some w) :
    Linked { s with consumer := w, markedAt := markedAt } := by
  rcases Procs.next_call hn with ⟨d, p, hst, hw⟩
  have hmoves := Consumer.stmt_moves ((Consumer.holds h.consumer).2 i) hst
  refine h.consumerStep hn ?_ ?_
  · rw [hw]
    exact hmoves.published
  · rw [hw]
    exact hmoves.content

/-- What happens to the queue keeps the links, too, as long as no event is published. -/
theorem Linked.consumer_env {ev : Consumer.Env} {w : Consumer.St} {acceptedAt : ℕ → ℕ}
    (h : Linked s) (hev : ∀ e, ev ≠ .publish e)
    (hn : Consumer.machine.next s.consumer (.env ev) = some w) :
    Linked { s with consumer := w, acceptedAt := acceptedAt } := by
  rcases Procs.next_env hn with ⟨d, hd, hw⟩
  refine h.consumerStep hn ?_ ?_
  · rw [hw]
    exact Consumer.env_published hd hev
  · rw [hw]
    exact (Consumer.env_content hd).1

/-! ## The two hand-overs -/

/-- COMMIT of an order puts a row into the outbox. -/
theorem Linked.insert {w : Relay.St} (h : Linked s) (hfresh : Fresh row s.rows)
    (hn : Relay.machine.next s.relay (.env (.insert (toOutboxRow row))) = some w) :
    Linked { s with relay := w, rows := s.rows ++ [row] } := by
  rcases Procs.next_env hn with ⟨d, hd, hw⟩
  rcases Relay.env_insert hd with ⟨hid, -, -, rfl⟩
  have hmem : ∀ row' ∈ s.rows, row' ∈ s.rows ++ [row] := fun _ => List.mem_append_left _
  have hpayloads : (s.rows ++ [row]).map OutboxInsert.payload =
      s.rows.map OutboxInsert.payload ++ [row.payload] := by
    rw [List.map_append]
    rfl
  refine
    { relay := h.relay.next hn
      consumer := h.consumer
      inserted := ?_
      ids := ?_
      distinct := ?_
      carried := ?_
      published := ?_
      arrived := ?_
      messages := h.messages
      waiting := ?_ }
  · rw [hw]
    change s.relay.shared.inserted ++ [row.id] = (s.rows ++ [row]).map OutboxInsert.id
    rw [h.inserted, List.map_append]
    rfl
  · intro row' hrow'
    rcases List.mem_append.mp hrow' with hrow' | hrow'
    · exact h.ids row' hrow'
    · rw [List.mem_singleton.mp hrow']
      exact hfresh.1
  -- the ids of the events still tell them apart
  · change ∀ e ∈ (s.rows ++ [row]).map OutboxInsert.payload, Consumer.Distinct e _
    rw [hpayloads]
    exact Consumer.distinct_add h.distinct hfresh.2
  -- the payloads that the relay holds are those of rows inserted before
  · have hcarried : Relay.Carried (Inserted (s.rows ++ [row])) s.relay := by
      refine h.carried.imp ?_
      rintro r ⟨row', hrow', hr⟩
      exact ⟨row', hmem row' hrow', hr⟩
    refine hcarried.next (Inserted.stable _) ?_ hn
    intro r hr
    cases hr
    exact ⟨row, List.mem_append_right _ (List.mem_singleton.mpr rfl), rfl⟩
  · intro e he
    change e ∈ (s.rows ++ [row]).map OutboxInsert.payload
    rw [hpayloads]
    exact List.mem_append_left _ (h.published e he)
  · rw [hw]
    intro n send hsend hacc
    rcases h.arrived n send hsend hacc with ⟨row', hrow', hrest⟩
    exact ⟨row', hmem row' hrow', hrest⟩
  · intro row' hrow'
    have hslot : ∀ k, w.shared.outbox k = Function.update s.relay.shared.outbox row.id
        (Slot.settled (some (toOutboxRow row))) k := by
      rw [hw]
      intro k
      rfl
    unfold Unpublished
    change (∃ r, (w.shared.outbox row'.id).base = some r ∧ r.publishedAt = none) ∨ _
    rw [hslot]
    -- the new row waits; the others wait or have arrived as before
    by_cases hk : row'.id = row.id
    · rw [hk, Function.update_self]
      exact Or.inl ⟨_, rfl, rfl⟩
    · rw [Function.update_of_ne hk]
      rcases List.mem_append.mp hrow' with hrow' | hrow'
      · exact h.waiting row' hrow'
      · rw [List.mem_singleton.mp hrow'] at hk
        exact absurd rfl hk

/-- The row of a message was inserted, under its id. -/
theorem rowOf_spec (h : s.rowOf n = some row) : ∃ send, s.relay.shared.sends n = some send ∧
    row ∈ s.rows ∧ row.id = send.row.id := by
  unfold St.rowOf at h
  rw [Option.bind_eq_some_iff] at h
  rcases h with ⟨send, hsend, hfind⟩
  exact ⟨send, hsend, List.mem_of_find?_eq_some hfind, by simpa using List.find?_some hfind⟩

/-- The broker takes a message, and its event is in the queue. -/
theorem Linked.accept {w : Relay.St} {c : Consumer.St} {acceptedAt : ℕ → ℕ} (h : Linked s)
    (hrow : s.rowOf n = some row)
    (hn : Relay.machine.next s.relay (.env (.accept n)) = some w)
    (hc : Consumer.machine.next s.consumer (.env (.publish row.payload)) = some c) :
    Linked { s with relay := w, consumer := c, acceptedAt := acceptedAt } := by
  rcases rowOf_spec hrow with ⟨send, hsend, hmem, hid⟩
  rcases Procs.next_env hn with ⟨d, hd, hw⟩
  -- the broker notes that it has the message
  have hd' : d = Relay.setSend s.relay.shared n { send with accepted := true } := by
    simp only [Relay.procs, Relay.env, Option.bind_eq_some_iff] at hd
    rcases hd with ⟨x, hx, hd⟩
    rw [hsend] at hx
    cases hx
    split at hd
    · cases hd
    · cases hd
      rfl
  subst hd'
  rcases Procs.next_env hc with ⟨dc, hdc, hcw⟩
  rcases Consumer.env_publish hdc with ⟨hbroker, hpub⟩
  -- the queue has one event more
  have hpublished : ∀ e, e ∈ c.shared.published ↔
      e ∈ s.consumer.shared.published ∨ e = row.payload := by
    rw [hcw]
    exact hpub
  -- no row has changed
  have houtbox : w.shared.outbox = s.relay.shared.outbox := by
    rw [hw]
    rfl
  refine
    { relay := h.relay.next hn
      consumer := h.consumer.next hc
      inserted := ?_
      ids := h.ids
      distinct := h.distinct
      carried := h.carried.next (Inserted.stable _) (fun r hr => by cases hr) hn
      published := ?_
      arrived := ?_
      messages := ?_
      waiting := ?_ }
  · rw [hw]
    exact h.inserted
  · intro e he
    rcases (hpublished e).mp he with he | rfl
    · exact h.published e he
    · exact List.mem_map_of_mem hmem
  · intro m x hx hacc
    change w.shared.sends m = some x at hx
    rw [hw] at hx
    change Function.update s.relay.shared.sends n _ m = some x at hx
    by_cases hm : m = n
    · subst hm
      rw [Function.update_self] at hx
      cases hx
      exact ⟨row, hmem, hid, (hpublished _).mpr (Or.inr rfl)⟩
    · rw [Function.update_of_ne hm] at hx
      rcases h.arrived m x hx hacc with ⟨row', hrow', hid', hp⟩
      exact ⟨row', hrow', hid', (hpublished _).mpr (Or.inl hp)⟩
  · intro e he
    change ∃ it ∈ c.shared.broker.items, _
    have hitems : c.shared.broker = s.consumer.shared.broker.publish (some row.payload.toJson) := by
      rw [hcw]
      exact hbroker
    rw [hitems]
    rcases (hpublished e).mp he with he | rfl
    · rcases h.messages e he with ⟨it, hit, htext⟩
      exact ⟨it, Broker.mem_publish hit, htext⟩
    · exact ⟨_, Broker.publish_mem, rfl⟩
  · intro row' hrow'
    unfold Unpublished
    change (∃ r, (w.shared.outbox row'.id).base = some r ∧ r.publishedAt = none) ∨
      row'.payload ∈ c.shared.published
    rw [houtbox]
    rcases h.waiting row' hrow' with hwait | hp
    · exact Or.inl hwait
    · exact Or.inr ((hpublished _).mpr (Or.inl hp))

/-! ## Runs -/

/-- Every step of the system keeps relay and consumer linked. -/
theorem Linked.next (h : Linked s) (hn : machine.next s l = some t) : Linked t := by
  cases l with
  | insert row =>
      simp only [machine, Delivery.next] at hn
      split at hn
      · next hfresh =>
          rcases onRelay_spec hn with ⟨w, hw, rfl⟩
          exact h.insert hfresh hw
      · cases hn
  | relay i a =>
      rcases onRelay_spec hn with ⟨w, hw, rfl⟩
      exact h.relay_call hw
  -- the only step that moves an event from one to the other
  | accept n =>
      simp only [machine, Delivery.next, Option.bind_eq_some_iff] at hn
      rcases hn with ⟨row, hrow, s', hs', hn⟩
      rcases onRelay_spec hs' with ⟨w, hw, rfl⟩
      rcases onConsumer_spec hn with ⟨c, hc, rfl⟩
      exact h.accept hrow hw hc
  | confirm n =>
      rcases onRelay_spec hn with ⟨w, hw, rfl⟩
      exact h.relay_heard (Or.inl ⟨n, rfl⟩) hw
  | reject n message =>
      rcases onRelay_spec hn with ⟨w, hw, rfl⟩
      exact h.relay_heard (Or.inr ⟨n, message, rfl⟩) hw
  | consumer i a =>
      rcases onConsumer_spec hn with ⟨c, hc, rfl⟩
      rw [noteMark_consumer] at hc
      unfold St.noteMark
      split
      · exact h.consumer_call hc
      · exact h.consumer_call hc
  | publishMalformed content =>
      rcases onConsumer_spec hn with ⟨c, hc, rfl⟩
      exact h.consumer_env (fun e he => by cases he) hc
  | returned i counted =>
      change s.onConsumer (.env (.returned i counted)) = some t at hn
      rcases onConsumer_spec hn with ⟨c, hc, rfl⟩
      exact h.consumer_env (fun e he => by cases he) hc
  -- retention deletes published rows only
  | purgeOutbox cutoff ids =>
      simp only [machine, Delivery.next] at hn
      split at hn
      · rcases onRelay_spec hn with ⟨w, hw, rfl⟩
        exact h.relay_purge hw
      · cases hn
  | purgeMarks cutoff keys =>
      rcases onConsumer_spec hn with ⟨c, hc, rfl⟩
      exact h.consumer_env (fun e he => by cases he) hc
  | tick dt =>
      simp only [machine, Delivery.next, Option.bind_eq_some_iff] at hn
      rcases hn with ⟨s', hs', hn⟩
      rcases onRelay_spec hs' with ⟨w, hw, rfl⟩
      rcases onConsumer_spec hn with ⟨c, hc, rfl⟩
      exact (h.relay_tick hw).consumer_env
        (fun e he => by cases he) hc

/-- The row that a step adds. -/
def Label.adds : Label → List OutboxInsert
  | .insert row => [row]
  | _ => []

/-- The rows that were inserted are those before and the one that the step inserts, if it does. -/
theorem next_rows (hn : machine.next s l = some t) : t.rows = s.rows ++ l.adds := by
  -- neither part looks at the list
  have relayStep : ∀ {s t : St} {rl : Relay.Label}, s.onRelay rl = some t → t.rows = s.rows := by
    intro s t rl h
    rcases onRelay_spec h with ⟨w, -, rfl⟩
    rfl
  have consumerStep : ∀ {s t : St} {cl : Consumer.Label}, s.onConsumer cl = some t →
      t.rows = s.rows := by
    intro s t cl h
    rcases onConsumer_spec h with ⟨c, -, rfl⟩
    rfl
  have same : t.rows = s.rows → t.rows = s.rows ++ [] := by
    intro h
    rw [h, List.append_nil]
  cases l with
  | insert row =>
      simp only [machine, Delivery.next] at hn
      split at hn
      · have hrows := relayStep hn
        exact hrows
      · cases hn
  | relay i a => exact same (relayStep hn)
  | accept n =>
      simp only [machine, Delivery.next, Option.bind_eq_some_iff] at hn
      rcases hn with ⟨row, -, s', hs', hn⟩
      have hrows : t.rows = s'.arrive.rows := consumerStep hn
      have hrelay : s'.rows = s.rows := relayStep hs'
      exact same (hrows.trans hrelay)
  | confirm n => exact same (relayStep hn)
  | reject n message => exact same (relayStep hn)
  | consumer i a =>
      have hrows : t.rows = (s.noteMark i a).rows := consumerStep hn
      exact same (hrows.trans (noteMark_rows s i a))
  | publishMalformed content =>
      have hrows : t.rows = s.arrive.rows := consumerStep hn
      exact same hrows
  | returned i counted =>
      change s.onConsumer (.env (.returned i counted)) = some t at hn
      exact same (consumerStep hn)
  | purgeOutbox cutoff ids =>
      simp only [machine, Delivery.next] at hn
      split at hn
      · exact same (relayStep hn)
      · cases hn
  | purgeMarks cutoff keys => exact same (consumerStep hn)
  | tick dt =>
      simp only [machine, Delivery.next, Option.bind_eq_some_iff] at hn
      rcases hn with ⟨s', hs', hn⟩
      have hrows : t.rows = s'.rows := consumerStep hn
      exact same (hrows.trans (relayStep hs'))

/-- A step confirms one order that was not confirmed, or none. -/
theorem Linked.confirms (h : Linked s) (hn : machine.next s l = some t) :
    Consumer.SameRows s.consumer.shared t.consumer.shared ∨
      ∃ e ∈ s.consumer.shared.published, (s.consumer.shared.confirmations e.orderId).base = none ∧
        ∀ o, (t.consumer.shared.confirmations o).base =
          Function.update (fun o => (s.consumer.shared.confirmations o).base) e.orderId
            (some e.confirmation) o := by
  rcases (next_parts hn).2 with heq | ⟨cl, hcl⟩
  · rw [heq]
    exact Or.inl fun _ => rfl
  · have hholds := Consumer.holds h.consumer
    cases cl with
    | call i a =>
        rcases Procs.next_call hcl with ⟨d, p, hst, hw⟩
        rw [hw]
        exact (Consumer.stmt_moves (hholds.2 i) hst).confirms hholds.1
    | env ev =>
        rcases Procs.next_env hcl with ⟨d, hd, hw⟩
        rw [hw]
        exact Or.inl (Consumer.env_content hd).2

/-- At the start there are no rows and no events, and relay and consumer have just begun. -/
theorem Linked.init (h : machine.Init s) : Linked s := by
  rcases h with ⟨hrelay, hconsumer, -, hrows, -⟩
  have hpublished : s.consumer.shared.published = [] := hconsumer.1.2.2.2.1
  refine
    { relay := Machine.Reachable.init hrelay
      consumer := Machine.Reachable.init hconsumer
      inserted := ?_
      ids := ?_
      distinct := ?_
      carried := Relay.Carried.init hrelay
      published := ?_
      arrived := ?_
      messages := ?_
      waiting := ?_ }
  · rw [hrows]
    exact hrelay.1.2.2.1
  · rw [hrows]
    intro row hrow
    cases hrow
  · rw [hrows]
    intro e he
    cases he
  · rw [hpublished]
    intro e he
    cases he
  · intro n send hsend
    rw [hrelay.1.2.1 n] at hsend
    cases hsend
  · rw [hpublished]
    intro e he
    cases he
  · rw [hrows]
    intro row hrow
    cases hrow

end Marketplace.Outbox.Delivery
