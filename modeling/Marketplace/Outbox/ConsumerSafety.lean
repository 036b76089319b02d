import Marketplace.Outbox.ConsumerInvariant

/-!
# Outbox.ConsumerSafety — every order is confirmed once, and no message is lost

`stmt_step` and `env_step` keep the invariant of `Outbox.ConsumerInvariant`, so it holds in
every run (`holds`). `exactly_once` puts together what it says of the consumer.
-/

namespace Marketplace.Outbox.Consumer

open Core

variable {i j : ℕ} {d d' : Db} {pc pc' : Pc} {a : Stmt} {dl : Delivery} {msg : Message}
  {e : OrderPlacedEvent} {v : Verdict} {err : Err}

/-! ## One statement -/

/-- A step of handler `i`. -/
structure Steps (i : ℕ) (d d' : Db) (pc' : Pc) : Prop where
  inv : Inv d'
  loc : Loc i d' pc'
  grows : Grows d d'
  rely : ∀ j, j ≠ i → Rely j d d'

/-- Only counters have changed. -/
structure Counts (d d' : Db) : Prop where
  processed : d'.processed = d.processed
  confirmations : d'.confirmations = d.confirmations
  broker : d'.broker = d.broker
  afterEffect : d'.afterEffect = d.afterEffect
  now : d'.now = d.now
  published : d'.published = d.published
  applied : d'.applied = d.applied
  effects : d'.effects = d.effects

theorem Counts.refl (d : Db) : Counts d d := ⟨rfl, rfl, rfl, rfl, rfl, rfl, rfl, rfl⟩

/-- Counting twice is counting. -/
theorem Counts.trans {d₁ : Db} (h : Counts d d₁) (h' : Counts d₁ d') : Counts d d' :=
  ⟨h'.processed.trans h.processed, h'.confirmations.trans h.confirmations,
    h'.broker.trans h.broker, h'.afterEffect.trans h.afterEffect, h'.now.trans h.now,
    h'.published.trans h.published, h'.applied.trans h.applied, h'.effects.trans h.effects⟩

/-- A verdict in between. -/
theorem Counts.settled (h : Counts d d') :
    Counts { d with broker := d.broker.settle i v } { d' with broker := d.broker.settle i v } :=
  ⟨h.processed, h.confirmations, rfl, h.afterEffect, h.now, h.published, h.applied, h.effects⟩

/-- Counters are part of what may change when rows, messages and events do not. -/
theorem Counts.quiet (h : Counts d d') : Quiet d d' where
  processed k := by rw [h.processed]
  confirmations o := by rw [h.confirmations]
  broker := h.broker
  afterEffect := h.afterEffect
  published := h.published
  effects n hn := by rwa [h.effects]

/-- A step that only counts leaves every handler what it relies on, also the one that counts. -/
theorem Counts.rely (h : Counts d d') (j : ℕ) : Rely j d d' where
  grows := h.quiet.grows
  processed := by
    rw [h.processed]
    exact Table.Kept.refl j _
  confirmations := by
    rw [h.confirmations]
    exact Table.Kept.refl j _
  unacked it hit := by rwa [h.broker] at hit

/-- A step that only counts, after a step. -/
theorem Steps.counts {d₁ : Db} (h : Steps i d d₁ pc) (hc : Counts d₁ d') (hloc : Loc i d₁ pc') :
    Steps i d d' pc' where
  inv := hc.quiet.inv h.inv
  loc := hloc.rely (hc.rely i)
  grows := h.grows.trans hc.quiet.grows
  rely j hj :=
    { grows := h.grows.trans hc.quiet.grows
      processed := (h.rely j hj).processed.trans (hc.rely j).processed
      confirmations := (h.rely j hj).confirmations.trans (hc.rely j).confirmations
      unacked := fun it hit => (h.rely j hj).unacked it ((hc.rely j).unacked it hit) }

theorem Steps.refl (hd : Inv d) (hl : Loc i d pc) : Steps i d d pc :=
  ⟨hd, hl, Grows.refl d, fun j _ => (Counts.refl d).rely j⟩

/-- A delivery that has been read as an event has a text that can be parsed. -/
theorem Reads.parses (h : Reads d dl e) : parseOrderPlacedEvent dl.msg.content ≠ none := by
  rw [h.content, parse_toJson]
  exact Option.some_ne_none _

theorem handleError_counts {t c : Bool} : Counts d (handleError d msg t c).1 := by
  unfold handleError
  split <;> exact ⟨rfl, rfl, rfl, rfl, rfl, rfl, rfl, rfl⟩

/-- After an error the handler settles its message: back to the queue, if the error is transient
and the budget not used up, else to the dead letters. -/
theorem handleError_loc {t c : Bool} (hf : InFlight i d msg) (hi : Idle i d)
    (hparse : parseOrderPlacedEvent msg.content ≠ none) :
    Loc i d (handleError d msg t c).2 := by
  unfold handleError
  split
  · next h =>
      rw [Bool.and_eq_true, decide_eq_true_iff] at h
      exact ⟨hf, hi, Or.inr ⟨rfl, h.2, hparse⟩⟩
  · exact ⟨hf, hi, Or.inl rfl⟩

/-- The end of a failed attempt, whether it is retried or not, changes nothing but counters. -/
theorem attemptFailed_counts {attempt : ℕ} : Counts d (attemptFailed d dl attempt err).1 := by
  unfold attemptFailed
  split
  · exact handleError_counts
  · exact Counts.refl d

/-- After a failed attempt the handler either begins the next one, still with the event it has
read, or settles its message. -/
theorem attemptFailed_loc {attempt : ℕ} (hf : InFlight i d dl.msg) (hi : Idle i d)
    (hread : Reads d dl e) : Loc i d (attemptFailed d dl attempt err).2 := by
  unfold attemptFailed
  split
  · exact handleError_loc hf hi hread.parses
  · exact ⟨hf, hi, e, hread⟩

/-- After an attempt that has committed, or has found the mark, `afterEffect` comes next, if there
is one, and then the `ack`. -/
theorem attemptDone_loc {applied : Bool} (hf : InFlight i d dl.msg) (hi : Idle i d)
    (hread : Reads d dl e) (hc : Confirmed d e) : Loc i d (attemptDone d dl applied) := by
  unfold attemptDone
  split
  · exact ⟨hf, hi, e, hread, hc⟩
  · next hae => exact ⟨hf, hi, ⟨e, hread, hc⟩, fun h => absurd h hae⟩

theorem countApplied_counts {applied : Bool} : Counts d (countApplied d applied) := by
  unfold countApplied
  split <;> exact ⟨rfl, rfl, rfl, rfl, rfl, rfl, rfl, rfl⟩

theorem receive_counts {msg : Message} : Counts d (receive d msg).1 := by
  unfold receive
  split <;> exact ⟨rfl, rfl, rfl, rfl, rfl, rfl, rfl, rfl⟩

/-- The transaction is rolled back. -/
theorem rollback_steps (hd : Inv d) (hl : Loc i (d.rollback i) pc) :
    Steps i d (d.rollback i) pc := by
  have hq : Quiet d (d.rollback i) :=
    ⟨fun k => Slot.rollback_base, fun o => Slot.rollback_base, rfl, rfl, rfl, fun _ h => h⟩
  exact ⟨hq.inv hd, hl, hq.grows, fun j hj =>
    ⟨hq.grows, Table.Kept.rollback hj.symm, Table.Kept.rollback hj.symm, fun _ h => h⟩⟩

theorem idle_rollback : Idle i (d.rollback i) :=
  ⟨fun _ => Slot.not_held_rollback, fun _ => Slot.not_held_rollback⟩

theorem idle_commit {k : String} : Idle i (d.commit i k) :=
  ⟨fun _ => Slot.not_held_commit, fun _ => Slot.not_held_commit⟩

/-- COMMIT. -/
theorem commit_steps {k : String} (hd : Inv d) (he : e ∈ d.published) (h : Drafts i d e)
    (hl : Loc i (d.commit i k) pc) : Steps i d (d.commit i k) pc where
  inv := h.inv hd he
  loc := hl
  grows := h.grows hd he
  rely _ hj := ⟨h.grows hd he, Table.Kept.commit hj.symm, Table.Kept.commit hj.symm, fun _ h => h⟩

/-- The handler gives its verdict. -/
theorem settle_steps (hd : Inv d) (hi : Idle i d)
    (hv : ∀ it, (i, it) ∈ d.broker.unacked →
      (v = .ack → (∃ e ∈ d.published, it.content = some e.toJson ∧ Confirmed d e) ∧
        (d.afterEffect = true → it.number ∈ d.effects)) ∧
      (v = .requeue → deliveryCount it < consumerMaxRedeliveries ∧
        parseOrderPlacedEvent it.content ≠ none)) :
    Steps i d { d with broker := d.broker.settle i v } .done where
  inv := hd.settle hv
  loc := hi
  grows := ⟨fun _ _ h => h, fun _ h => h, fun _ h => h, rfl⟩
  rely _ _ := ⟨⟨fun _ _ h => h, fun _ h => h, fun _ h => h, rfl⟩, Table.Kept.refl _ _,
    Table.Kept.refl _ _, fun _ => Broker.mem_unacked_settle⟩

/-- A message is handed to the handler. -/
theorem deliver_steps {n : ℕ} {b : Broker ℕ (Option Json)} (hd : Inv d) (hl : Loc i d .idle)
    (hb : d.broker.deliver i n = some (b, msg)) :
    Steps i d (receive { d with broker := b } msg).1 (receive { d with broker := b } msg).2 := by
  have hflight : InFlight i { d with broker := b } msg := by
    intro it hit
    change (i, it) ∈ b.unacked at hit
    rw [Broker.deliver_unacked hb] at hit
    rcases List.mem_append.mp hit with hit | hit
    · exact absurd (List.mem_map.mpr ⟨_, hit, rfl⟩) hl.2
    · cases List.mem_singleton.mp hit
      rfl
  -- the message changes its place, so only the clauses on places have to be looked at
  have hinv : Inv { d with broker := b } :=
    { conserved := hd.conserved.deliver hl.2 hb
      distinct := hd.distinct
      content := fun it hit => hd.content it ((Broker.deliver_items hb).mp hit)
      rows := hd.rows
      marks := hd.marks
      acked := by
        intro it hit
        change it ∈ b.acked at hit
        rw [Broker.deliver_acked hb] at hit
        exact hd.acked it hit
      requeues := fun it hit => hd.requeues it ((Broker.deliver_items hb).mp hit)
      malformed := fun it hit => hd.malformed it ((Broker.deliver_items hb).mp hit) }
  have hgrows : Grows d { d with broker := b } :=
    ⟨fun _ _ h => h, fun _ h => h, fun _ h => h, rfl⟩
  -- the others have no new delivery
  have hrely : ∀ j, j ≠ i → Rely j d { d with broker := b } := by
    intro j hj
    refine ⟨hgrows, Table.Kept.refl _ _, Table.Kept.refl _ _, ?_⟩
    intro it hit
    change (j, it) ∈ b.unacked at hit
    rw [Broker.deliver_unacked hb] at hit
    rcases List.mem_append.mp hit with hit | hit
    · exact hit
    · cases List.mem_singleton.mp hit
      exact absurd rfl hj
  have hidle : Idle i { d with broker := b } := hl.1
  -- a text that cannot be parsed goes to the dead letters; any other is one of a published event
  cases hparse : parseOrderPlacedEvent msg.content with
  | none =>
      simp only [receive, hparse]
      have hloc : Loc i { d with broker := b } (.settle msg .discard false) :=
        ⟨hflight, hidle, Or.inl rfl⟩
      exact Steps.counts ⟨hinv, hloc, hgrows, hrely⟩ ⟨rfl, rfl, rfl, rfl, rfl, rfl, rfl, rfl⟩ hloc
  | some event =>
      simp only [receive, hparse]
      have hreads : ∃ e, Reads { d with broker := b } ⟨msg, event⟩ e := by
        rcases hd.content msg (Broker.deliver_mem hb) with ⟨e, he, hcontent⟩ | hnone
        · rw [hcontent, parse_toJson] at hparse
          cases hparse
          exact ⟨e, he, hcontent, rfl⟩
        · rw [hparse] at hnone
          cases hnone
      have hloc : Loc i { d with broker := b } (.connect ⟨msg, event⟩ 1) :=
        ⟨hflight, hidle, hreads⟩
      exact Steps.counts ⟨hinv, hloc, hgrows, hrely⟩ ⟨rfl, rfl, rfl, rfl, rfl, rfl, rfl, rfl⟩ hloc

/-- The INSERT of the mark. A mark that is there already is that of a confirmed event. -/
theorem mark_steps {attempt at₀ : ℕ} {T : Table ℕ String ℕ} {inserted : Bool} (hd : Inv d)
    (hl : Loc i d (.mark dl attempt at₀))
    (h : d.processed.insertNew i dl.event.eventId at₀ = some (T, inserted)) :
    Steps i d { d with processed := T }
      (if inserted then .confirm dl attempt else .rollbackSkip dl attempt) := by
  rcases hl with ⟨hf, hi, e, hread⟩
  rcases Table.insertNew_cases h with ⟨hfree, ⟨rfl, rfl, hsome⟩ | ⟨-, rfl, rfl⟩⟩
  -- the mark is there: its event is this one, and is confirmed
  · refine Steps.refl hd ⟨hf, hi, e, hread, ?_⟩
    rw [Slot.view_of_not_held (hi.1 _)] at hsome
    rcases Option.isSome_iff_exists.mp hsome with ⟨t, ht⟩
    rcases hd.marks _ t ht with ⟨e', he', hk, hc⟩
    rw [hread.event] at hk
    have heq : e' = e :=
      hd.distinct e hread.published e' he' (Or.inl (repr_injective hk).symm)
    rwa [heq] at hc
  -- the mark is new: a draft, so nothing committed has changed
  · have hq : Quiet d { d with processed := d.processed.put i dl.event.eventId (some at₀) } :=
      ⟨fun k => Table.put_base, fun _ => rfl, rfl, rfl, rfl, fun _ h => h⟩
    refine ⟨hq.inv hd, ⟨hf, e, hread.grows hq.grows, ?_, hi.2⟩, hq.grows, ?_⟩
    · intro k hk
      change ((d.processed.put i dl.event.eventId (some at₀)) k).Held i at hk
      rw [Table.held_put_iff] at hk
      split at hk
      · next heq => rw [heq, hread.event]; rfl
      · exact absurd hk (hi.1 k)
    · intro j hj
      exact ⟨hq.grows, Table.Kept.put hj.symm hfree, Table.Kept.refl _ _, fun _ h => h⟩

/-- The INSERT of the confirmation. A row that is there already is the same. -/
theorem confirm_steps {attempt : ℕ} {o : ℤ} {c : Confirmation} {T : Table ℕ ℤ Confirmation}
    {inserted : Bool} (hd : Inv d) (hl : Loc i d (.confirm dl attempt))
    (hrow : confirmationOf dl.event = .ok (o, c))
    (h : d.confirmations.insertNew i o c = some (T, inserted)) :
    Steps i d { d with confirmations := T } (.commit dl attempt) := by
  rcases hl with ⟨hf, e, hread, hm⟩
  rw [hread.event] at hrow
  rcases confirmationOf_parsed hrow with ⟨rfl, rfl⟩
  rcases Table.insertNew_cases h with ⟨hfree, ⟨rfl, -, hsome⟩ | ⟨-, -, rfl⟩⟩
  -- the row is there: the same order has the same event
  · refine Steps.refl hd ⟨hf, e, hread, hm.mark, fun o ho => absurd ho (hm.row o), ?_⟩
    rcases Option.isSome_iff_exists.mp hsome with ⟨c, hc⟩
    have hb := hc
    rw [Slot.view_of_not_held (hm.row _)] at hb
    rcases hd.rows _ c hb with ⟨e', he', ho, rfl⟩
    have heq : e' = e :=
      hd.distinct e hread.published e' he' (Or.inr (Int.ofNat.inj ho).symm)
    rwa [heq] at hc
  · have hq : Quiet d
        { d with confirmations := d.confirmations.put i e.orderId (some e.confirmation) } :=
      ⟨fun _ => rfl, fun o => Table.put_base, rfl, rfl, rfl, fun _ h => h⟩
    refine ⟨hq.inv hd, ⟨hf, e, hread.grows hq.grows, hm.mark, ?_, ?_⟩, hq.grows, ?_⟩
    · intro o ho
      change ((d.confirmations.put i (e.orderId : ℤ) _) o).Held i at ho
      rw [Table.held_put_iff] at ho
      split at ho
      · next heq => exact heq
      · exact absurd ho (hm.row o)
    · change ((d.confirmations.put i (e.orderId : ℤ) _) e.orderId).view i = _
      rw [Table.put_self, Slot.view_put]
    · intro j hj
      exact ⟨hq.grows, Table.Kept.refl _ _, Table.Kept.put hj.symm hfree, fun _ h => h⟩

/-- What a statement of the transaction knows is enough to roll it back. -/
theorem Pc.Runs.loc {attempt : ℕ} (h : pc.Runs dl attempt) (hl : Loc i d pc) :
    Loc i d (.rollback dl attempt err) := by
  cases h with
  | begin | mark | rollbackSkip =>
      obtain ⟨hf, -, e, hread⟩ := hl
      first | exact ⟨hf, e, hread⟩ | exact ⟨hf, e, hread.1⟩
  | confirm | commit =>
      obtain ⟨hf, e, hread, -⟩ := hl
      exact ⟨hf, e, hread⟩

/-- `afterEffect` has succeeded. -/
theorem effect_steps {applied : Bool} (hd : Inv d) (hf : InFlight i d dl.msg) (hi : Idle i d)
    (hread : Reads d dl e) (hc : Confirmed d e) :
    Steps i d { d with effects := d.effects ++ [dl.msg.number] } (.ack dl applied) := by
  have hq : Quiet d { d with effects := d.effects ++ [dl.msg.number] } :=
    ⟨fun _ => rfl, fun _ => rfl, rfl, rfl, rfl, fun _ h => List.mem_append_left _ h⟩
  refine ⟨hq.inv hd, ⟨hf, hi, ⟨e, hread.grows hq.grows, hc⟩, ?_⟩, hq.grows, ?_⟩
  · intro _
    exact List.mem_append_right _ (List.mem_singleton.mpr rfl)
  · intro j _
    exact ⟨hq.grows, Table.Kept.refl _ _, Table.Kept.refl _ _, fun _ h => h⟩

/-- Every statement of a handler keeps the invariant. -/
theorem stmt_step (hd : Inv d) (hl : Loc i d pc) (h : stmt i d pc a = some (d', pc')) :
    Steps i d d' pc' := by
  cases stmt_does h with
  | receives hb => exact deliver_steps hd hl hb
  | connects => exact Steps.refl hd hl
  -- the pool gives no client: nothing has been written, the attempt is over
  | noConnection =>
      obtain ⟨hf, hi, e, hread⟩ := id hl
      exact (Steps.refl hd hl).counts attemptFailed_counts (attemptFailed_loc hf hi hread)
  | begins => exact Steps.refl hd hl
  | marks hT => exact mark_steps hd hl hT
  -- the mark was there before: nothing to write, on to the acknowledgement
  | skips =>
      obtain ⟨hf, hi, e, hread, hc⟩ := hl
      have hs : Steps i d (d.rollback i) .aborted := rollback_steps hd idle_rollback
      have hg : Grows d (d.rollback i) := hs.grows
      exact rollback_steps hd
        (attemptDone_loc (d := d.rollback i) hf idle_rollback (hread.grows hg) (hc.grows hg))
  | refuses _ =>
      obtain ⟨hf, e, hread, -⟩ := hl
      exact Steps.refl hd ⟨hf, e, hread⟩
  | confirms hrow hT => exact confirm_steps hd hl hrow hT
  | commits =>
      rename_i dl attempt
      obtain ⟨hf, e, hread, hdraft⟩ := hl
      have hg := hdraft.grows (k := dl.event.eventId) hd hread.published
      exact commit_steps hd hread.published hdraft
        (attemptDone_loc (d := d.commit i _) hf idle_commit (hread.grows hg) hdraft.confirmed)
  -- the rows are committed and the handler does not know
  | commitsUnheard =>
      rename_i dl attempt err
      obtain ⟨hf, e, hread, hdraft⟩ := hl
      have hg := hdraft.grows (k := dl.event.eventId) hd hread.published
      exact commit_steps hd hread.published hdraft ⟨hf, e, hread.grows hg⟩
  | throws hruns => exact Steps.refl hd (hruns.loc hl)
  -- after ROLLBACK the error decides between another attempt and the end
  | rollsBack =>
      obtain ⟨hf, e, hread⟩ := hl
      have hs : Steps i d (d.rollback i) .aborted := rollback_steps hd idle_rollback
      exact hs.counts attemptFailed_counts (attemptFailed_loc hf idle_rollback
        (hread.grows hs.grows))
  | effect =>
      obtain ⟨hf, hi, e, hread, hc⟩ := hl
      exact effect_steps hd hf hi hread hc
  | effectFails =>
      obtain ⟨hf, hi, e, hread, -⟩ := id hl
      exact (Steps.refl hd hl).counts handleError_counts (handleError_loc hf hi hread.parses)
  | acks =>
      obtain ⟨hf, hi, ⟨e, hread, hc⟩, heff⟩ := hl
      have hs : Steps i d { d with broker := d.broker.settle i .ack } .done := by
        refine settle_steps hd hi ?_
        intro it hit
        cases hf it hit
        exact ⟨fun _ => ⟨⟨e, hread.published, hread.content, hc⟩, heff⟩, nofun⟩
      exact hs.counts countApplied_counts.settled hs.loc
  | ackLost => exact (Steps.refl hd hl).counts countApplied_counts hl.2.1
  -- `ack` has thrown: the effect is done and counted, and `handleError` decides
  | ackThrows =>
      rename_i dl applied err
      have hs : Steps i d (countApplied d applied) (.ack dl applied) :=
        (Steps.refl hd hl).counts countApplied_counts hl
      obtain ⟨hf, hi, ⟨e, hread, -⟩, -⟩ := hs.loc
      exact hs.counts handleError_counts (handleError_loc hf hi hread.parses)
  -- `nack`: to the dead letters, or back to the queue within the budget
  | settles =>
      obtain ⟨hf, hi, hv⟩ := hl
      refine settle_steps hd hi ?_
      intro it hit
      cases hf it hit
      rcases hv with rfl | ⟨rfl, hlt, hparse⟩
      · exact ⟨nofun, nofun⟩
      · exact ⟨nofun, fun _ => ⟨hlt, hparse⟩⟩
  | settleLost => exact Steps.refl hd hl.2.1
  | aborts _ => exact rollback_steps hd idle_rollback

/-! ## One step of the others -/

/-- A publish adds one message to the broker, with the next number and no deliveries so far, and
takes none away. -/
theorem publish_items {m : Option Json} {b : Broker ℕ (Option Json)} {x : Message}
    (h : x ∈ (b.publish m).items) : x ∈ b.items ∨ x = ⟨b.next, m, 0, false, 0⟩ := by
  rw [Broker.mem_items] at h ⊢
  rcases h with h | h
  · rcases List.mem_append.mp h with h | h
    · exact Or.inl (Or.inl h)
    · exact Or.inr (List.mem_singleton.mp h)
  · exact Or.inl (Or.inr h)

/-- A new message, and the events with it. -/
theorem publish_inv {m : Option Json} {published : List OrderPlacedEvent} (hd : Inv d)
    (hsub : ∀ e ∈ d.published, e ∈ published) (hdist : ∀ e ∈ published, Distinct e published)
    (hm : (∃ e ∈ published, m = some e.toJson) ∨ parseOrderPlacedEvent m = none) :
    Inv { d with broker := d.broker.publish m, published := published } where
  conserved := hd.conserved.publish
  distinct := hdist
  content it hit := by
    rcases publish_items hit with hit | rfl
    · rcases hd.content it hit with ⟨e, he, hc⟩ | hnone
      · exact Or.inl ⟨e, hsub e he, hc⟩
      · exact Or.inr hnone
    · exact hm
  rows o c hb := by
    rcases hd.rows o c hb with ⟨e, he, h⟩
    exact ⟨e, hsub e he, h⟩
  marks k t hb := by
    rcases hd.marks k t hb with ⟨e, he, h⟩
    exact ⟨e, hsub e he, h⟩
  acked it hit := by
    rcases hd.acked it hit with ⟨⟨e, he, h⟩, heff⟩
    exact ⟨⟨e, hsub e he, h⟩, heff⟩
  requeues it hit := by
    rcases publish_items hit with hit | rfl
    · exact hd.requeues it hit
    · exact ⟨Nat.le_refl _, Nat.zero_le _⟩
  malformed it hit hparse := by
    rcases publish_items hit with hit | rfl
    · exact hd.malformed it hit hparse
    · rfl

/-- An event whose ids no earlier event shares with it, unless it is the same, can be added to the
published events. -/
theorem distinct_add {published : List OrderPlacedEvent}
    (hd : ∀ e ∈ published, Distinct e published) (he : Distinct e published) :
    ∀ e' ∈ published ++ [e], Distinct e' (published ++ [e]) := by
  intro x hx y hy hxy
  rcases List.mem_append.mp hx with hx | hx
  · rcases List.mem_append.mp hy with hy | hy
    · exact hd x hx y hy hxy
    · rw [List.mem_singleton.mp hy] at hxy ⊢
      exact (he x hx (hxy.imp Eq.symm Eq.symm)).symm
  · rw [List.mem_singleton.mp hx] at hxy ⊢
    rcases List.mem_append.mp hy with hy | hy
    · exact he y hy hxy
    · exact List.mem_singleton.mp hy

/-- What the other parties do keeps the invariant, and leaves every handler what it relies on. -/
theorem env_step {ev : Env} (hd : Inv d) (h : env d ev = some d') :
    Inv d' ∧ ∀ j, Rely j d d' := by
  cases ev with
  -- a new message of an event, new or already published
  | publish e =>
      simp only [env] at h
      split at h
      · next hdist =>
          cases h
          have hsub : ∀ e' ∈ d.published,
              e' ∈ (if e ∈ d.published then d.published else d.published ++ [e]) := by
            intro e' he'
            split
            · exact he'
            · exact List.mem_append_left _ he'
          refine ⟨publish_inv hd hsub ?_ (Or.inl ⟨e, ?_, rfl⟩), ?_⟩
          · split
            · exact hd.distinct
            · exact distinct_add hd.distinct hdist
          · split
            · next hmem => exact hmem
            · exact List.mem_append_right _ (List.mem_singleton.mpr rfl)
          · intro j
            exact ⟨⟨fun _ _ h => h, hsub, fun _ h => h, rfl⟩, Table.Kept.refl _ _,
              Table.Kept.refl _ _, fun _ h => h⟩
      · cases h
  -- a message of somebody else, which cannot be parsed
  | publishMalformed m =>
      simp only [env] at h
      split at h
      · next hparse =>
          cases h
          refine ⟨publish_inv hd (fun _ h => h) hd.distinct (Or.inr hparse), ?_⟩
          intro j
          exact ⟨⟨fun _ _ h => h, fun _ h => h, fun _ h => h, rfl⟩, Table.Kept.refl _ _,
            Table.Kept.refl _ _, fun _ h => h⟩
      · cases h
  -- the channel of a handler ends: its message goes back to the queue
  | returned i counted =>
      cases h
      refine ⟨hd.settle fun _ _ => ⟨nofun, nofun⟩, ?_⟩
      intro j
      exact ⟨⟨fun _ _ h => h, fun _ h => h, fun _ h => h, rfl⟩, Table.Kept.refl _ _,
        Table.Kept.refl _ _, fun _ => Broker.mem_unacked_settle⟩
  -- the retention sweep takes marks away, and only marks that nobody has locked
  | purge cutoff keys =>
      simp only [env] at h
      split at h
      · next hp =>
          cases h
          have hkept : ∀ j, Table.Kept j d.processed
              (fun k => if k ∈ keys then Slot.settled none else d.processed k) := by
            intro j
            refine ⟨?_, ?_⟩
            · rintro k ⟨v, hv⟩
              have hk : k ∉ keys := by
                intro hk
                rw [(hp.2 k hk).1] at hv
                cases hv
              exact if_neg hk
            · intro k hk
              split
              · exact Slot.not_held_settled
              · exact hk
          refine ⟨{ hd with marks := ?_ }, ?_⟩
          · intro k t hb
            dsimp only at hb
            split at hb
            · cases hb
            · exact hd.marks k t hb
          · intro j
            exact ⟨⟨fun _ _ h => h, fun _ h => h, fun _ h => h, rfl⟩, hkept j,
              Table.Kept.refl _ _, fun _ h => h⟩
      · cases h
  -- time passes
  | tick dt =>
      cases h
      have hq : Quiet d { d with now := d.now + dt } :=
        ⟨fun _ => rfl, fun _ => rfl, rfl, rfl, rfl, fun _ h => h⟩
      exact ⟨hq.inv hd, fun j => ⟨hq.grows, Table.Kept.refl _ _, Table.Kept.refl _ _,
        fun _ h => h⟩⟩

/-! ## Runs -/

variable {s t u : St} {as : List Label}

/-- At the start there are no rows, no messages and no events, and every handler is idle without a
lock. -/
theorem holds_init (h : machine.Init s) : Procs.Holds Inv Loc s := by
  rcases h with ⟨⟨hproc, hconf, hbroker, hpub, happ, heff⟩, hidle⟩
  refine ⟨⟨?_, ?_, ?_, ?_, ?_, ?_, ?_, ?_⟩, ?_⟩
  · rw [hbroker]
    exact Broker.Conserved.empty
  · intro e he
    rw [hpub] at he
    cases he
  -- the local facts; the rest are the clauses of the invariant
  · intro it hit
    rw [hbroker] at hit
    cases hit
  · intro o c hb
    rw [hconf] at hb
    cases hb
  · intro k t hb
    rw [hproc] at hb
    cases hb
  · intro it hit
    rw [hbroker] at hit
    cases hit
  · intro it hit
    rw [hbroker] at hit
    cases hit
  · intro it hit
    rw [hbroker] at hit
    cases hit
  · intro i
    rw [hidle i]
    refine ⟨⟨?_, ?_⟩, ?_⟩
    · intro k
      rw [hproc]
      exact Slot.not_held_settled
    · intro o
      rw [hconf]
      exact Slot.not_held_settled
    · rw [hbroker]
      intro h
      cases h

/-- One step of the system. -/
theorem next_step {act : Label} (hs : Procs.Holds Inv Loc s) (hn : machine.next s act = some t) :
    Procs.Holds Inv Loc t ∧ Grows s.shared t.shared := by
  cases act with
  | call i a =>
      rcases Procs.next_call hn with ⟨d, p, hst, rfl⟩
      have hstep := stmt_step hs.1 (hs.2 i) hst
      refine ⟨⟨hstep.inv, ?_⟩, hstep.grows⟩
      refine Procs.forall_update (Q := fun j => Loc j d) hstep.loc ?_
      intro j hj
      exact (hs.2 j).rely (hstep.rely j hj)
  | env ev =>
      rcases Procs.next_env hn with ⟨d, hd, rfl⟩
      rcases env_step hs.1 hd with ⟨hinv, hrely⟩
      exact ⟨⟨hinv, fun j => (hs.2 j).rely (hrely j)⟩, (hrely 0).grows⟩

/-- Every run keeps the invariant and the local facts, and takes nothing back that was committed,
published or done. -/
theorem run_holds (hr : machine.Run Machine.Always s as t) (hs : Procs.Holds Inv Loc s) :
    Procs.Holds Inv Loc t ∧ Grows s.shared t.shared := by
  induction hr with
  | refl => exact ⟨hs, Grows.refl _⟩
  | step _ _ hn ih =>
      have hstep := next_step ih.1 hn
      exact ⟨hstep.1, ih.2.trans hstep.2⟩

theorem holds (h : machine.Reachable s) : Procs.Holds Inv Loc s := by
  rcases h with ⟨s₀, as, hinit, hr⟩
  exact (run_holds hr (holds_init hinit)).1

/-- The handler that has thrown a permanent error dead-letters its message. -/
theorem permanent_discards {attempt : ℕ} (hpc : s.proc i = .rollback dl attempt err)
    (herr : isTransientDbError err = false) (hn : machine.next s (.call i .run) = some t) :
    t.proc i = .settle dl.msg .discard false := by
  rcases Procs.next_call hn with ⟨d, p, hst, rfl⟩
  rw [hpc] at hst
  have hr : attemptFailed (s.shared.rollback i) dl attempt err = (d, p) := Option.some.inj hst
  have hp : p = .settle dl.msg .discard false := by
    have h2 : p = (attemptFailed (s.shared.rollback i) dl attempt err).2 := by rw [hr]
    rw [h2]
    unfold attemptFailed handleError
    simp [herr]
  change Function.update s.proc i p i = _
  rw [Function.update_self, hp]

/-- Every order is confirmed at most once, with the data of its event, and for good; a mark is
there only with the confirmation; what was acknowledged is confirmed; every message is in
exactly one place; a message that cannot be parsed, or failed for good, is not put back, and
no message is put back more than five times. -/
theorem exactly_once (h : machine.Reachable s) :
    (∀ o c, (s.shared.confirmations o).base = some c →
      (∃ e ∈ s.shared.published, o = e.orderId ∧ c = e.confirmation) ∧
      ∀ as t, machine.Run Machine.Always s as t → (t.shared.confirmations o).base = some c) ∧
    (∀ k t, (s.shared.processed k).base = some t →
      ∃ e ∈ s.shared.published, k = Nat.repr e.eventId ∧ Confirmed s.shared e) ∧
    (∀ it ∈ s.shared.broker.acked, (∃ e ∈ s.shared.published, it.content = some e.toJson ∧
      Confirmed s.shared e) ∧ (s.shared.afterEffect = true → it.number ∈ s.shared.effects)) ∧
    s.shared.broker.numbers.Perm (List.range s.shared.broker.next) ∧
    (∀ it ∈ s.shared.broker.items, it.requeues ≤ consumerMaxRedeliveries ∧
      (parseOrderPlacedEvent it.content = none →
        it.requeues = 0 ∧ it ∉ s.shared.broker.acked)) ∧
    ∀ i dl attempt err t, s.proc i = .rollback dl attempt err → isTransientDbError err = false →
      machine.next s (.call i .run) = some t → t.proc i = .settle dl.msg .discard false := by
  have hs := holds h
  have hinv := hs.1
  refine ⟨?_, hinv.marks, hinv.acked, hinv.conserved.once, ?_, ?_⟩
  · intro o c hb
    refine ⟨hinv.rows o c hb, ?_⟩
    intro as t hr
    exact (run_holds hr hs).2.rows o c hb
  · intro it hit
    refine ⟨(hinv.requeues it hit).2, ?_⟩
    intro hparse
    refine ⟨hinv.malformed it hit hparse, ?_⟩
    intro hack
    rcases (hinv.acked it hack).1 with ⟨e, -, hc, -⟩
    rw [hc, parse_toJson] at hparse
    cases hparse
  · intro i dl attempt err t hpc herr hn
    exact permanent_discards hpc herr hn

def oneEvent : OrderPlacedEvent :=
  { eventId := 7, occurredAt := 0, orderId := 1, userId := 2, totalCents := 500
    shippingCountry := "UA", items := [] }

def emptyDb : Db :=
  { processed := Table.ofBase fun _ => none, confirmations := Table.ofBase fun _ => none
    broker := Broker.empty, afterEffect := true, stats := emptyStats, now := 0
    published := [], applied := [], effects := [] }

def emptyStart : St := ⟨emptyDb, fun _ => .idle⟩

theorem emptyStart_init : machine.Init emptyStart :=
  ⟨⟨fun _ => rfl, fun _ => rfl, rfl, rfl, rfl, rfl⟩, fun _ => rfl⟩

/-- COMMIT of the first delivery is reported as failed; the retry finds the mark. -/
def retriedDelivery : List Label :=
  [.env (.publish oneEvent), .call 0 (.deliver 0), .call 0 .run, .call 0 .run, .call 0 .run,
    .call 0 .run, .call 0 (.failCommitted (.object (some "08006") none)), .call 0 .run,
    .call 0 .run, .call 0 .run, .call 0 .run, .call 0 .run, .call 0 .run, .call 0 .run]

/-- The run in which the answer of COMMIT is lost: the retry finds the mark and skips, and the
message is acknowledged with its order confirmed once and `afterEffect` done. -/
theorem exactly_once_retried : ∃ s, machine.Reachable s ∧ s.shared.stats.skipped = 1 ∧
    ∃ it ∈ s.shared.broker.acked, (∃ e ∈ s.shared.published, it.content = some e.toJson ∧
      Confirmed s.shared e) ∧ it.number ∈ s.shared.effects := by
  have hrun : ((machine.exec (fun _ _ => true) emptyStart retriedDelivery).map fun s =>
      (s.shared.stats.skipped, s.shared.afterEffect, s.shared.broker.acked.length)) =
        some (1, true, 1) := by
    decide +kernel
  rw [Option.map_eq_some_iff] at hrun
  rcases hrun with ⟨s, hexec, hs⟩
  simp only [Prod.mk.injEq] at hs
  rcases hs with ⟨hskip, hae, hlen⟩
  have hreach : machine.Reachable s :=
    ⟨emptyStart, _, emptyStart_init, Machine.exec_always hexec⟩
  rcases List.exists_mem_of_length_pos (Nat.lt_of_lt_of_eq Nat.one_pos hlen.symm) with ⟨it, hit⟩
  have hack := (exactly_once hreach).2.2.1 it hit
  exact ⟨s, hreach, hskip, it, hit, hack.1, hack.2 hae⟩

end Marketplace.Outbox.Consumer
