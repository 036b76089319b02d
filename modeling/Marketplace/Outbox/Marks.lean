import Marketplace.Outbox.Delivery

/-!
# Outbox.Marks — does a mark outlive every copy of its event?

`applyOrderPlaced` returns true twice for an event whose mark was purged before another copy
of it arrived: the relay publishes a row again after a crash, however long it was stopped
(`applied_twice`).

`applied_once`: as long as every copy of an event that was applied is handled within the
retention period of its mark, the mark is still there.
-/

namespace Marketplace.Outbox.Delivery

open Core Auth Orders

variable {i j n : ℕ} {d d' : Consumer.Db} {pc pc' : Consumer.Pc} {a : Consumer.Stmt} {k : String}

/-! ## What a statement does to the marks -/

/-- The transaction has put the mark in. -/
def Marking (k : String) : Consumer.Pc → Prop
  | .confirm dl _ | .commit dl _ => dl.event.eventId = k
  | _ => False

inductive OnMarks (i : ℕ) (d : Consumer.Db) :
    Consumer.Pc → Consumer.Stmt → Consumer.Db → Consumer.Pc → Prop
  | same {pc pc' : Consumer.Pc} {a : Consumer.Stmt} {d' : Consumer.Db} :
      d'.processed = d.processed → d'.applied = d.applied → commitsMark pc a = none →
      (∀ k, Marking k pc' → Marking k pc) → OnMarks i d pc a d' pc'
  | insert {dl : Consumer.Delivery} {n at₀ : ℕ} {d' : Consumer.Db} :
      (d.processed dl.event.eventId).view i = none →
      (d.processed dl.event.eventId).Free i →
      d'.processed = d.processed.put i dl.event.eventId (some at₀) → d'.applied = d.applied →
      OnMarks i d (.mark dl n at₀) .run d' (.confirm dl n)
  | rollback {pc pc' : Consumer.Pc} {a : Consumer.Stmt} {d' : Consumer.Db} :
      d'.processed = d.processed.rollback i → d'.applied = d.applied → commitsMark pc a = none →
      (∀ k, ¬ Marking k pc') → OnMarks i d pc a d' pc'
  | commit {dl : Consumer.Delivery} {n : ℕ} {a : Consumer.Stmt} {d' : Consumer.Db}
      {pc' : Consumer.Pc} : commitsMark (.commit dl n) a = some dl.event.eventId →
      d'.processed = d.processed.commit i → d'.applied = d.applied ++ [dl.event.eventId] →
      (∀ k, ¬ Marking k pc') → OnMarks i d (.commit dl n) a d' pc'

theorem handleError_marking {msg : Consumer.Message} {t c : Bool} :
    ¬ Marking k (Consumer.handleError d msg t c).2 := by
  unfold Consumer.handleError
  split <;> exact id

/-- After a failed attempt the handler is outside its transaction, so it has written no mark. -/
theorem attemptFailed_marking {dl : Consumer.Delivery} {err : Err} :
    ¬ Marking k (Consumer.attemptFailed d dl n err).2 := by
  unfold Consumer.attemptFailed
  split
  · exact handleError_marking
  · exact id

theorem attemptDone_marking {dl : Consumer.Delivery} {applied : Bool} :
    ¬ Marking k (Consumer.attemptDone d dl applied) := by
  unfold Consumer.attemptDone
  split <;> exact id

theorem receive_marking {msg : Consumer.Message} : ¬ Marking k (Consumer.receive d msg).2 := by
  unfold Consumer.receive
  split <;> exact id

theorem commitsMark_runs {dl : Consumer.Delivery} {err : Err} (h : pc.Runs dl n) :
    commitsMark pc (.fail err) = none := by
  cases h <;> rfl

/-- Every statement of a handler, and the clock. -/
theorem stmt_onMarks (h : Consumer.stmt i d pc a = some (d', pc')) :
    OnMarks i d pc a d' pc' ∧ d'.now = d.now := by
  -- counters alone, and the handler is outside its transaction
  have counted : ∀ {d₁ : Consumer.Db} {q : Consumer.Pc}, Consumer.Counts d d₁ →
      commitsMark pc a = none → (∀ k, ¬ Marking k q) →
      OnMarks i d pc a d₁ q ∧ d₁.now = d.now := by
    intro d₁ q hc hnone hq
    exact ⟨.same hc.processed hc.applied hnone fun k hk => absurd hk (hq k), hc.now⟩
  cases Consumer.stmt_does h with
  | receives _ =>
      rename_i n b msg _
      have hc : Consumer.Counts { d with broker := b }
          (Consumer.receive { d with broker := b } msg).1 :=
        Consumer.receive_counts
      exact ⟨.same hc.processed hc.applied rfl fun _ hk => absurd hk receive_marking, hc.now⟩
  | connects | begins => exact ⟨.same rfl rfl rfl fun _ => id, rfl⟩
  | noConnection => exact counted Consumer.attemptFailed_counts rfl fun _ => attemptFailed_marking
  -- the INSERT writes a mark, or finds one and writes nothing
  | marks hT =>
      rcases Table.insertNew_cases hT with ⟨hfree, ⟨rfl, rfl, -⟩ | ⟨hnone, rfl, rfl⟩⟩
      · exact ⟨.same rfl rfl rfl fun _ => id, rfl⟩
      · exact ⟨.insert hnone hfree rfl rfl, rfl⟩
  | skips => exact ⟨.rollback rfl rfl rfl fun _ => attemptDone_marking, rfl⟩
  | refuses _ => exact counted (Consumer.Counts.refl d) rfl fun _ => id
  | confirms _ _ => exact ⟨.same rfl rfl rfl fun _ => id, rfl⟩
  -- the two COMMITs make the mark permanent
  | commits => exact ⟨.commit rfl rfl rfl fun _ => attemptDone_marking, rfl⟩
  | commitsUnheard => exact ⟨.commit rfl rfl rfl fun _ => id, rfl⟩
  | throws hruns => exact counted (Consumer.Counts.refl d) (commitsMark_runs hruns) fun _ => id
  -- the draft of the mark is gone
  | rollsBack =>
      rename_i dl attempt err
      have hc : Consumer.Counts (d.rollback i)
          (Consumer.attemptFailed (d.rollback i) dl attempt err).1 :=
        Consumer.attemptFailed_counts
      exact ⟨.rollback hc.processed hc.applied rfl fun _ => attemptFailed_marking, hc.now⟩
  | effect => exact ⟨.same rfl rfl rfl fun _ hk => absurd hk id, rfl⟩
  | effectFails => exact counted Consumer.handleError_counts rfl fun _ => handleError_marking
  | acks =>
      rename_i dl applied
      have hc : Consumer.Counts d (Consumer.countApplied d applied) := Consumer.countApplied_counts
      exact ⟨.same hc.processed hc.applied rfl fun _ hk => absurd hk id, hc.now⟩
  | ackLost => exact counted Consumer.countApplied_counts rfl fun _ => id
  | ackThrows =>
      exact counted (Consumer.countApplied_counts.trans Consumer.handleError_counts) rfl
        fun _ => handleError_marking
  | settles => exact ⟨.same rfl rfl rfl fun _ hk => absurd hk id, rfl⟩
  | settleLost => exact counted (Consumer.Counts.refl d) rfl fun _ => id
  | aborts _ =>
      have hc : commitsMark pc .abort = none := by
        cases pc <;> rfl
      exact ⟨.rollback rfl rfl hc fun _ => id, rfl⟩

/-! ## When a copy is handled -/

/-- The message that the step takes from the queue, or whose mark it inserts, with its event. -/
def handles (s : St) : Label → Option (ℕ × String)
  | .consumer _ (.deliver n) =>
      (s.consumer.shared.broker.queue.find? fun it => it.number == n).bind fun it =>
        (parseOrderPlacedEvent it.content).map fun event => (n, event.eventId)
  | .consumer i .run =>
      match s.consumer.proc i with
      | .mark dl _ _ => some (dl.msg.number, dl.event.eventId)
      | _ => none
  | _ => none

/-- No message is handled later than the retention period after it arrived. -/
def Brief (s : St) (l : Label) : Prop :=
  ∀ n k, handles s l = some (n, k) → s.now ≤ s.acceptedAt n + Consumer.inboxRetention

/-- No copy of an event that was applied is handled later than the retention period after its
mark was made. -/
def InTime (s : St) (l : Label) : Prop :=
  ∀ n k t, handles s l = some (n, k) → s.markedAt k = some t →
    s.now ≤ t + Consumer.inboxRetention

/-! ## The invariant -/

structure Aged (s : St) : Prop where
  consumer : Procs.Holds Consumer.Inv Consumer.Loc s.consumer
  once : ∀ k, s.consumer.shared.applied.count k ≤ 1
  noted : ∀ k, s.markedAt k = none ↔ k ∉ s.consumer.shared.applied
  /-- A mark is gone only when it is old. -/
  kept : ∀ k t, s.markedAt k = some t →
    (s.consumer.shared.processed k).base = some t ∨ t + Consumer.inboxRetention < s.now
  /-- Whoever has put a mark in has put in the first. -/
  first : ∀ i k, Marking k (s.consumer.proc i) → (s.consumer.shared.processed k).Held i ∧
    (∃ t, (s.consumer.shared.processed k).view i = some t) ∧ s.markedAt k = none

variable {s t : St} {l : Label}

/-- The mark is there when a copy is handled. -/
theorem Aged.present {m : ℕ} (h : Aged s) (hok : InTime s l) (hl : handles s l = some (n, k))
    (hm : s.markedAt k = some m) : (s.consumer.shared.processed k).base = some m := by
  rcases h.kept k m hm with hb | hold
  · exact hb
  · exact absurd (hok n k m hl hm) (Nat.not_le_of_lt hold)

/-- Steps that leave the marks alone. -/
theorem Aged.same (h : Aged s) (hc : Procs.Holds Consumer.Inv Consumer.Loc t.consumer)
    (hproc : t.consumer.proc = s.consumer.proc)
    (hp : t.consumer.shared.processed = s.consumer.shared.processed)
    (ha : t.consumer.shared.applied = s.consumer.shared.applied) (hm : t.markedAt = s.markedAt)
    (hnow : s.now ≤ t.now) : Aged t where
  consumer := hc
  once := by
    rw [ha]
    exact h.once
  noted := by
    rw [ha, hm]
    exact h.noted
  kept k m hk := by
    rw [hm] at hk
    rw [hp]
    exact (h.kept k m hk).imp_right fun hlt => Nat.lt_of_lt_of_le hlt hnow
  first := by
    rw [hproc, hp, hm]
    exact h.first

/-- A handler moves: what its own transaction and those of the others hold afterwards is left to be
shown, clause by clause. -/
theorem Aged.moves {d' : Consumer.Db} {pc' : Consumer.Pc} {marks : String → Option ℕ}
    (h : Aged s)
    (hholds : Procs.Holds Consumer.Inv Consumer.Loc
      ⟨d', Function.update s.consumer.proc i pc'⟩)
    (once : ∀ k, d'.applied.count k ≤ 1) (noted : ∀ k, marks k = none ↔ k ∉ d'.applied)
    (kept : ∀ k m, marks k = some m →
      (d'.processed k).base = some m ∨ m + Consumer.inboxRetention < d'.now)
    (mine : ∀ k, Marking k pc' → (d'.processed k).Held i ∧
      (∃ m, (d'.processed k).view i = some m) ∧ marks k = none)
    (others : ∀ j k, j ≠ i → (s.consumer.shared.processed k).Held j → s.markedAt k = none →
      d'.processed k = s.consumer.shared.processed k ∧ marks k = none) :
    Aged { s with consumer := ⟨d', Function.update s.consumer.proc i pc'⟩, markedAt := marks } := by
  refine ⟨hholds, once, noted, kept, ?_⟩
  intro j k hk
  change Marking k (Function.update s.consumer.proc i pc' j) at hk
  change (d'.processed k).Held j ∧ (∃ m, (d'.processed k).view j = some m) ∧ marks k = none
  by_cases hj : j = i
  · subst hj
    rw [Function.update_self] at hk
    exact mine k hk
  · rw [Function.update_of_ne hj] at hk
    have hold := h.first j k hk
    rcases others j k hj hold.1 hold.2.2 with ⟨hslot, hnone⟩
    rw [hslot]
    exact ⟨hold.1, hold.2.1, hnone⟩

/-- A handler moves and applies nothing: the marks that are permanent stay as they are. -/
theorem Aged.moves_unapplied {d' : Consumer.Db} {pc' : Consumer.Pc} (h : Aged s)
    (hholds : Procs.Holds Consumer.Inv Consumer.Loc
      ⟨d', Function.update s.consumer.proc i pc'⟩)
    (ha : d'.applied = s.consumer.shared.applied)
    (hbase : ∀ k, (d'.processed k).base = (s.consumer.shared.processed k).base)
    (hnow : d'.now = s.consumer.shared.now)
    (mine : ∀ k, Marking k pc' → (d'.processed k).Held i ∧
      (∃ m, (d'.processed k).view i = some m) ∧ s.markedAt k = none)
    (others : ∀ j k, j ≠ i → (s.consumer.shared.processed k).Held j →
      d'.processed k = s.consumer.shared.processed k) :
    Aged { s with consumer := ⟨d', Function.update s.consumer.proc i pc'⟩ } := by
  refine h.moves hholds ?_ ?_ ?_ mine fun j k hj hheld hnone => ⟨others j k hj hheld, hnone⟩
  · rw [ha]
    exact h.once
  · rw [ha]
    exact h.noted
  · intro k m hk
    rw [hbase k, hnow]
    exact h.kept k m hk

/-- Where the INSERT finds no mark the event was never applied: a copy handled in time would have
found it. -/
theorem Aged.unmarked {dl : Consumer.Delivery} {attempt at₀ : ℕ} (h : Aged s)
    (hok : InTime s (.consumer i .run)) (hpc : s.consumer.proc i = .mark dl attempt at₀)
    (hheld : ¬ (s.consumer.shared.processed dl.event.eventId).Held i)
    (hnone : (s.consumer.shared.processed dl.event.eventId).view i = none) :
    s.markedAt dl.event.eventId = none := by
  cases hm : s.markedAt dl.event.eventId with
  | none => rfl
  | some m =>
      have hhandles : handles s (.consumer i .run) =
          some (dl.msg.number, dl.event.eventId) := by
        simp only [handles, hpc]
      have hb := h.present hok hhandles hm
      rw [Slot.view_of_not_held hheld, hb] at hnone
      cases hnone

/-- The first application of an event commits: its mark becomes permanent and is noted. -/
theorem Aged.commits {d' : Consumer.Db} {pc' : Consumer.Pc} {key : String} {m₀ : ℕ} (h : Aged s)
    (hholds : Procs.Holds Consumer.Inv Consumer.Loc
      ⟨d', Function.update s.consumer.proc i pc'⟩)
    (hheld : (s.consumer.shared.processed key).Held i)
    (hview : (s.consumer.shared.processed key).view i = some m₀) (hfirst : s.markedAt key = none)
    (honly : ∀ k, (s.consumer.shared.processed k).Held i → k = key)
    (hp : d'.processed = s.consumer.shared.processed.commit i)
    (ha : d'.applied = s.consumer.shared.applied ++ [key])
    (hnow : d'.now = s.consumer.shared.now) (hmark : ∀ k, ¬ Marking k pc') :
    Aged { s with consumer := ⟨d', Function.update s.consumer.proc i pc'⟩,
                  markedAt := Function.update s.markedAt key (some m₀) } := by
  refine h.moves hholds ?_ ?_ ?_ (fun k hk => absurd hk (hmark k)) ?_
  · intro k
    rw [ha, List.count_append, List.count_singleton]
    split
    · next heq =>
        have hnot := (h.noted key).mp hfirst
        rw [← eq_of_beq heq, List.count_eq_zero_of_not_mem hnot]
    · exact h.once k
  · intro k
    rw [ha, List.mem_append, List.mem_singleton]
    by_cases hk : k = key
    · subst hk
      rw [Function.update_self]
      exact ⟨nofun, fun hnot => absurd (Or.inr rfl) hnot⟩
    · rw [Function.update_of_ne hk, h.noted k]
      exact ⟨fun hnot hor => hor.elim hnot hk, fun hnot hin => hnot (Or.inl hin)⟩
  · intro k m hk
    rw [hp, hnow, Table.commit_apply, Slot.commit_base]
    by_cases hkey : k = key
    · subst hkey
      rw [Function.update_self] at hk
      exact Or.inl (hview.trans hk)
    · rw [Function.update_of_ne hkey] at hk
      -- the transaction holds no other mark
      rw [Slot.view_of_not_held fun hh => hkey (honly k hh)]
      exact h.kept k m hk
  · intro j k hj hother hnone
    have hne : k ≠ key := by
      rintro rfl
      exact hj (hother.unique hheld)
    rw [hp, Table.commit_apply, hother.commit_other (Ne.symm hj), Function.update_of_ne hne]
    exact ⟨rfl, hnone⟩

/-- A statement of a handler. -/
theorem Aged.stmt (h : Aged s) (hok : InTime s (.consumer i a))
    (hn : machine.next s (.consumer i a) = some t) : Aged t := by
  change (s.noteMark i a).onConsumer (.call i a) = some t at hn
  rcases onConsumer_spec hn with ⟨c, hc, rfl⟩
  rw [noteMark_consumer] at hc
  have hholds := (Consumer.next_step h.consumer hc).1
  rcases Procs.next_call hc with ⟨d', pc', hst, rfl⟩
  rcases stmt_onMarks hst with ⟨hon, hnow⟩
  have hloc := h.consumer.2 i
  generalize hpc : s.consumer.proc i = pc at hon hloc
  have quiet : commitsMark pc a = none → s.noteMark i a = s := by
    intro hnone
    unfold St.noteMark
    rw [hpc, hnone]
  -- what the statement does to the marks decides which clauses have to be looked at
  cases hon with
  | same hp ha hcm hmark =>
      rw [quiet hcm]
      refine h.moves_unapplied hholds ha (fun k => by rw [hp]) hnow ?_ fun _ _ _ _ => by rw [hp]
      intro k hk
      rw [hp]
      refine h.first i k ?_
      rw [hpc]
      exact hmark k hk
  | @insert dl attempt at₀ _ hnone hfree hp ha =>
      rw [quiet rfl]
      have hfirst := h.unmarked hok hpc (hloc.2.1.1 _) hnone
      refine h.moves_unapplied hholds ha (fun k => by rw [hp, Table.put_base]) hnow ?_ ?_
      · intro k hk
        have hkey : dl.event.eventId = k := hk
        subst hkey
        rw [hp, Table.put_self, Slot.view_put]
        exact ⟨Slot.held_put, ⟨at₀, rfl⟩, hfirst⟩
      · intro j k hj hheld
        have hne : k ≠ dl.event.eventId := by
          rintro rfl
          exact hheld.not_free hj hfree
        rw [hp, Table.put_ne hne]
  -- only drafts of handler `i` are lost, and it is not marking any more
  | rollback hp ha hcm hmark =>
      rw [quiet hcm]
      refine h.moves_unapplied hholds ha ?_ hnow (fun k hk => absurd hk (hmark k)) ?_
      · intro k
        rw [hp, Table.rollback_apply, Slot.rollback_base]
      · intro j k hj hheld
        rw [hp, Table.rollback_apply, hheld.rollback_other (Ne.symm hj)]
  | @commit dl attempt _ _ _ hcm hp ha hmark =>
      rcases h.first i dl.event.eventId (by rw [hpc]; rfl) with ⟨hheld, ⟨m₀, hview⟩, hfirst⟩
      have hnote : s.noteMark i a = { s with
          markedAt := Function.update s.markedAt dl.event.eventId (some m₀) } := by
        unfold St.noteMark
        rw [hpc, hcm, ← hview]
      have honly : ∀ k, (s.consumer.shared.processed k).Held i → k = dl.event.eventId := by
        intro k hk
        rcases hloc with ⟨-, e, hread, hdraft⟩
        rw [hread.event]
        exact hdraft.mark k hk
      rw [hnote]
      exact h.commits hholds hheld hview hfirst honly hp ha hnow hmark

/-- A step of the relay. -/
theorem Aged.onRelay {rl : Relay.Label} (h : Aged s) (hn : s.onRelay rl = some t) : Aged t := by
  rcases onRelay_spec hn with ⟨r, -, rfl⟩
  exact h.same h.consumer rfl rfl rfl rfl (Nat.le_refl _)

/-- An event of the consumer's surroundings that leaves the marks alone. -/
theorem Aged.onConsumer {ev : Consumer.Env} (h : Aged s)
    (hn : s.onConsumer (.env ev) = some t) (hp : ∀ cutoff keys, ev ≠ .purge cutoff keys) :
    Aged t := by
  rcases onConsumer_spec hn with ⟨c, hc, rfl⟩
  have hholds := (Consumer.next_step h.consumer hc).1
  rcases Procs.next_env hc with ⟨d', hd, rfl⟩
  cases ev with
  | publish e =>
      change Consumer.env s.consumer.shared (.publish e) = some d' at hd
      simp only [Consumer.env] at hd
      split at hd
      · cases hd
        exact h.same hholds rfl rfl rfl rfl (Nat.le_refl _)
      · cases hd
  | publishMalformed content =>
      change Consumer.env s.consumer.shared (.publishMalformed content) = some d' at hd
      simp only [Consumer.env] at hd
      split at hd
      · cases hd
        exact h.same hholds rfl rfl rfl rfl (Nat.le_refl _)
      · cases hd
  | returned i counted =>
      cases hd
      exact h.same hholds rfl rfl rfl rfl (Nat.le_refl _)
  | purge cutoff keys => exact absurd rfl (hp cutoff keys)
  | tick dt =>
      cases hd
      exact h.same hholds rfl rfl rfl rfl (Nat.le_add_right _ _)

/-- A purge takes old marks only. -/
theorem Aged.purge {cutoff : ℕ} {keys : List String} (h : Aged s)
    (hn : s.onConsumer (.env (.purge cutoff keys)) = some t) : Aged t := by
  rcases onConsumer_spec hn with ⟨c, hc, rfl⟩
  have hholds := (Consumer.next_step h.consumer hc).1
  rcases Procs.next_env hc with ⟨d', hd, rfl⟩
  change Consumer.env s.consumer.shared (.purge cutoff keys) = some d' at hd
  simp only [Consumer.env] at hd
  split at hd
  · next hguard =>
      rcases hguard with ⟨hcutoff, hkeys⟩
      cases hd
      refine ⟨hholds, h.once, h.noted, ?_, ?_⟩
      · intro k m hm
        rcases h.kept k m hm with hb | hold
        -- a purged mark is older than its retention period, one that is kept is as before
        · by_cases hk : k ∈ keys
          · have hlt := (hkeys k hk).2
            rw [hb] at hlt
            have hlt' : m < cutoff := of_decide_eq_true hlt
            exact Or.inr (Nat.lt_of_lt_of_le (Nat.add_lt_add_right hlt' _) hcutoff)
          · left
            change (if k ∈ keys then _ else s.consumer.shared.processed k).base = some m
            rw [if_neg hk]
            exact hb
        · exact Or.inr hold
      · intro j k hk
        have hold := h.first j k hk
        -- a mark that a handler has drafted is locked, and purging it would wait
        have hnot : k ∉ keys := by
          intro hin
          rcases hold.1 with ⟨v, hv⟩
          rw [(hkeys k hin).1] at hv
          cases hv
        change (if k ∈ keys then _ else s.consumer.shared.processed k).Held j ∧
          (∃ t, (if k ∈ keys then _ else s.consumer.shared.processed k).view j = some t) ∧ _
        rw [if_neg hnot]
        exact hold
  · cases hd

/-- Every step of a system whose deliveries are handled in time keeps the invariant. -/
theorem Aged.next (h : Aged s) (hok : InTime s l) (hn : machine.next s l = some t) :
    Aged t := by
  cases l with
  | insert row =>
      simp only [machine, Delivery.next] at hn
      split at hn
      · have hrows : Aged { s with rows := s.rows ++ [row] } :=
          h.same h.consumer rfl rfl rfl rfl (Nat.le_refl _)
        exact hrows.onRelay hn
      · cases hn
  | relay i a => exact h.onRelay hn
  -- the arrival notes a moment, and no mark
  | accept n =>
      simp only [machine, Delivery.next, Option.bind_eq_some_iff] at hn
      rcases hn with ⟨row, -, s', hs', hn⟩
      have hs := h.onRelay hs'
      have harrive : Aged s'.arrive := hs.same hs.consumer rfl rfl rfl rfl (Nat.le_refl _)
      exact harrive.onConsumer hn (by intro cutoff keys h; cases h)
  | confirm n => exact h.onRelay hn
  | reject n message => exact h.onRelay hn
  | consumer i a => exact h.stmt hok hn
  | publishMalformed content =>
      have harrive : Aged s.arrive := h.same h.consumer rfl rfl rfl rfl (Nat.le_refl _)
      change s.arrive.onConsumer (.env (.publishMalformed content)) = some t at hn
      exact harrive.onConsumer hn (by intro cutoff keys h; cases h)
  | returned i counted =>
      change s.onConsumer (.env (.returned i counted)) = some t at hn
      exact h.onConsumer hn (by intro cutoff keys h; cases h)
  | purgeOutbox cutoff ids =>
      simp only [machine, Delivery.next] at hn
      split at hn
      · exact h.onRelay hn
      · cases hn
  -- the only step that takes marks away
  | purgeMarks cutoff keys =>
      change s.onConsumer (.env (.purge cutoff keys)) = some t at hn
      exact h.purge hn
  | tick dt =>
      simp only [machine, Delivery.next, Option.bind_eq_some_iff] at hn
      rcases hn with ⟨s', hs', hn⟩
      exact (h.onRelay hs').onConsumer hn (by intro cutoff keys h; cases h)

/-- At the start no mark was ever made and no event applied. -/
theorem Aged.init (h : machine.Init s) : Aged s := by
  rcases h with ⟨-, hc, -, -, hmarked⟩
  have hholds := Consumer.holds_init hc
  rcases hc with ⟨⟨-, -, -, -, happ, -⟩, hidle⟩
  refine ⟨hholds, ?_, ?_, ?_, ?_⟩
  · intro k
    rw [happ]
    exact Nat.zero_le 1
  · intro k
    rw [happ, hmarked k]
    exact ⟨fun _ => List.not_mem_nil, fun _ => rfl⟩
  · intro k m hm
    rw [hmarked k] at hm
    cases hm
  · intro i k hk
    rw [hidle i] at hk
    exact absurd hk id

/-- If every copy of an event that was applied is handled within the retention period of its mark,
each event is applied at most once, and its mark is there whenever a copy is delivered. -/
theorem applied_once {s₀ s : St} {as : List Label} (hinit : machine.Init s₀)
    (hr : machine.Run InTime s₀ as s) :
    (∀ k, s.consumer.shared.applied.count k ≤ 1) ∧
    ∀ l n k, InTime s l → handles s l = some (n, k) → k ∈ s.consumer.shared.applied →
      ((s.consumer.shared.processed k).base).isSome := by
  have h : Aged s :=
    hr.invariant (P := Aged) (fun _ _ _ hok hn hp => hp.next hok hn) (Aged.init hinit)
  refine ⟨h.once, ?_⟩
  intro l n k hok hl hk
  cases hm : s.markedAt k with
  | none => exact absurd hk ((h.noted k).mp hm)
  | some m =>
      rw [h.present hok hl hm]
      rfl

/-! ## The relay stops for a month -/

def emptyStart : St :=
  { relay := Relay.emptyOutbox
    consumer := ⟨{ Consumer.emptyDb with now := 100 }, fun _ => .idle⟩
    rows := [], acceptedAt := fun _ => 0, markedAt := fun _ => none }

theorem emptyStart_init : machine.Init emptyStart :=
  ⟨Relay.emptyOutbox_init, ⟨⟨fun _ => rfl, fun _ => rfl, rfl, rfl, rfl, rfl⟩, fun _ => rfl⟩, rfl,
    rfl, fun _ => rfl⟩

def oneRow : OutboxInsert :=
  { id := 7, aggregateId := 1, payload := Consumer.oneEvent, createdAt := 90 }

/-- A pass sends the row, up to its settlement, and the broker takes it. -/
def sendsRow (i n : ℕ) : List Label :=
  .relay i (.start 50) :: List.replicate 5 (.relay i .run) ++ [.accept n]

/-- Handler `i` applies message `n` and acknowledges it. -/
def appliesMessage (i n : ℕ) : List Label :=
  .consumer i (.deliver n) :: List.replicate 7 (.consumer i .run)

/-- Pass 0 crashes before its UPDATE, and `pause` later pass 1 sends the row again. -/
def stoppedRelay (pause : ℕ) : List Label :=
  .insert oneRow :: sendsRow 0 0 ++ [.relay 0 .abort] ++ appliesMessage 0 0 ++
  [.tick pause, .purgeMarks (100 + pause - Consumer.inboxRetention)
      (if Consumer.inboxRetention < pause then ["7"] else [])] ++
    sendsRow 1 1 ++ appliesMessage 1 1

/-- `Brief`, evaluated. -/
def isBrief (s : St) (l : Label) : Bool :=
  (handles s l).all fun p => decide (s.now ≤ s.acceptedAt p.1 + Consumer.inboxRetention)

/-- The decision procedure of the example is right: what it accepts keeps the condition on how
long a delivery is handled. -/
theorem isBrief_ok (s : St) (l : Label) (h : isBrief s l = true) : Brief s l := by
  intro n k hl
  rw [isBrief, hl] at h
  exact of_decide_eq_true h

/-- Every message is handled at once, and the event is applied twice all the same. -/
theorem applied_twice : ¬ ∀ (s₀ s : St) (as : List Label), machine.Init s₀ →
    machine.Run Brief s₀ as s → ∀ k, s.consumer.shared.applied.count k ≤ 1 := by
  intro hall
  have hrun : ((machine.exec isBrief emptyStart
      (stoppedRelay (Consumer.inboxRetention + 1))).map fun s => s.consumer.shared.applied) =
        some ["7", "7"] := by
    decide +kernel
  rw [Option.map_eq_some_iff] at hrun
  rcases hrun with ⟨s, hexec, happ⟩
  have hle := hall emptyStart s _ emptyStart_init (Machine.exec_run isBrief_ok hexec) "7"
  rw [happ] at hle
  revert hle
  decide +kernel

/-- `InTime`, evaluated. -/
def isInTime (s : St) (l : Label) : Bool :=
  (handles s l).all fun p =>
    (s.markedAt p.2).all fun t => decide (s.now ≤ t + Consumer.inboxRetention)

/-- The same for the condition on redeliveries, so that the run below can be evaluated. -/
theorem isInTime_ok (s : St) (l : Label) (h : isInTime s l = true) : InTime s l := by
  intro n k t hl hm
  rw [isInTime, hl] at h
  change (s.markedAt k).all _ = true at h
  rw [hm] at h
  exact of_decide_eq_true h

/-- Pass 1 takes over at once: both messages are there before one of them is applied. -/
def relayTakesOver : List Label :=
  .insert oneRow :: sendsRow 0 0 ++ [.relay 0 .abort] ++ sendsRow 1 1 ++ appliesMessage 0 0 ++
    .consumer 1 (.deliver 1) :: List.replicate 6 (.consumer 1 .run)

/-- The run in which a second relay publishes the row again: the second delivery finds the mark,
and the order is applied once. -/
theorem applied_once_takesOver : ∃ s, machine.Run InTime emptyStart relayTakesOver s ∧
    s.consumer.shared.stats.skipped = 1 ∧ s.consumer.shared.applied.count "7" ≤ 1 := by
  have hrun : ((machine.exec isInTime emptyStart relayTakesOver).map fun s =>
      s.consumer.shared.stats.skipped) = some 1 := by
    decide +kernel
  rw [Option.map_eq_some_iff] at hrun
  rcases hrun with ⟨s, hexec, hskipped⟩
  have hr := Machine.exec_run isInTime_ok hexec
  exact ⟨s, hr, hskipped, (applied_once emptyStart_init hr).1 "7"⟩

end Marketplace.Outbox.Delivery
