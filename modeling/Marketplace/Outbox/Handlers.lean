import Marketplace.Outbox.ConsumerSafety
import Marketplace.Outbox.Outcomes
import Mathlib.Algebra.Order.Ring.Rat
import Mathlib.Data.Nat.Cast.Order.Basic

/-!
# Outbox.Handlers — the handlers of the consumer are those of the outcomes

`Outbox.Consumer` runs `handle` statement by statement against the tables and the broker;
`Outbox.Outcomes` runs it from one await to the next, against any answers of the database and
any channel. Every run of the consumer is a run of the outcomes, with the same counters at
every moment (`handlers_follow`): a transaction is one await, and what the handler does between
`afterEffect` and its verdict is one step.

So what `Outbox.Outcomes` proves of the counters holds of the consumer: as long as no `ch.ack`
throws, they add up once every handler has returned (`counters_balance`).
-/

namespace Marketplace.Outbox.Outcomes

open Core

variable {i : ℕ} {d d' : Consumer.Db} {pc pc' : Consumer.Pc} {a : Consumer.Stmt} {q q' : Pc}
  {b : Book} {withEffect : Bool} {msg : Consumer.Message} {dl : Consumer.Delivery}

/-! ## Messages and handlers -/

/-- The delivery, as the channel hands it over: the header is there once the broker has counted
one. -/
def toMessage (msg : Consumer.Message) : Message where
  content := msg.content
  count := if msg.deliveryCount > 0 then .number (some msg.deliveryCount) else .value (.ok none)
  redelivered := msg.redelivered

/-- The count that the handler reads from the headers of a message is the number that the broker
keeps for it. -/
theorem deliveryCount_toMessage :
    deliveryCount (toMessage msg) = .ok (Consumer.deliveryCount msg : ℚ) := by
  by_cases hpos : msg.deliveryCount > 0
  · simp only [deliveryCount, toMessage, Consumer.deliveryCount, if_pos hpos]
    rfl
  · simp only [deliveryCount, toMessage, Consumer.deliveryCount, if_neg hpos]
    cases msg.redelivered <;> rfl

/-- The delivery and the attempt of `withLocalRetry` the handler is in. -/
def attempting : Consumer.Pc → Option (Consumer.Delivery × ℕ)
  | .connect dl attempt | .begin dl attempt | .mark dl attempt _ | .rollbackSkip dl attempt
  | .confirm dl attempt | .commit dl attempt | .rollback dl attempt _ => some (dl, attempt)
  | _ => none

theorem attempting_runs {attempt : ℕ} (h : pc.Runs dl attempt) :
    attempting pc = some (dl, attempt) := by
  cases h <;> rfl

/-- Where the handler of the outcomes is meanwhile. It has not heard of the answer that took
the other one to its `ch.ack`, and it has returned once the other one is at its verdict. A
crashed handler is somewhere, and stays there. -/
inductive Follows (withEffect : Bool) : Consumer.Pc → Pc → Prop
  | idle : Follows withEffect .idle .idle
  | applying {pc : Consumer.Pc} {dl : Consumer.Delivery} {attempt : ℕ} :
      attempting pc = some (dl, attempt) →
      Follows withEffect pc (.applying (toMessage dl.msg) attempt)
  | effect {dl : Consumer.Delivery} {applied : Bool} :
      Follows withEffect (.effect dl applied) (.effect (toMessage dl.msg) applied)
  | ackEffect {dl : Consumer.Delivery} {applied : Bool} :
      Follows withEffect (.ack dl applied) (.effect (toMessage dl.msg) applied)
  | ackApplied {dl : Consumer.Delivery} {applied : Bool} {attempt : ℕ} : withEffect = false →
      Follows withEffect (.ack dl applied) (.applying (toMessage dl.msg) attempt)
  | settle {msg : Consumer.Message} {v : Verdict} {closed : Bool} :
      Follows withEffect (.settle msg v closed) .done
  | done : Follows withEffect .done .done
  | crashed {q : Pc} : Follows withEffect .aborted q

/-- The counters agree, and every handler follows its own. -/
structure Refines (s : Consumer.St) (o : World ℕ Book Pc) : Prop where
  stats : o.shared.stats = s.shared.stats
  handlers : ∀ i, Follows s.shared.afterEffect (s.proc i) (o.proc i)

/-! ## The catch block and the counters -/

/-- Where the catch block of `handle` sends a message. -/
def caught (msg : Consumer.Message) (isTransient : Bool) : Counter × Settling :=
  if isTransient && Consumer.deliveryCount msg < consumerMaxRedeliveries then
    (.requeued, .rejectRequeue)
  else (.failed, .nack)

/-- The catch block, on a message as the broker delivers it and a channel that does not throw: one
counter, one settling, and the handler returns. -/
theorem handleError_toMessage {err : Thrown} {ch : Channel} :
    handleError i ch (toMessage msg) err b =
      ((b.count (caught msg (transient err)).1).attempt i (caught msg (transient err)).2,
        .done) := by
  have hcast : ((Consumer.deliveryCount msg : ℕ) : ℚ) < (consumerMaxRedeliveries : ℕ) ↔
      Consumer.deliveryCount msg < consumerMaxRedeliveries := Nat.cast_lt
  unfold handleError caught
  cases ht : transient err with
  | false => rfl
  -- a transient error looks at the number of deliveries
  | true =>
      rw [deliveryCount_toMessage]
      by_cases hlt : Consumer.deliveryCount msg < consumerMaxRedeliveries
      · simp [hlt, hcast, safely, ended]
      · simp [hlt, hcast, safely, ended]

/-- The two models of the catch block count the same. -/
theorem handleError_stats {isTransient closed : Bool} :
    (Consumer.handleError d msg isTransient closed).1.stats =
      count d.stats (caught msg isTransient).1 := by
  unfold Consumer.handleError caught
  split <;> rfl

/-- After the catch block one handler still has to settle its message, where the other has
returned already. -/
theorem handleError_settles {isTransient closed : Bool} :
    Follows withEffect (Consumer.handleError d msg isTransient closed).2 .done := by
  unfold Consumer.handleError
  split <;> exact .settle

/-- And they count the same when the message is about to be acknowledged. -/
theorem countApplied_stats {applied : Bool} : (Consumer.countApplied d applied).stats =
    count d.stats (if applied then .applied else .skipped) := by
  cases applied <;> rfl

/-! ## One statement -/

/-- `ch.ack` throws. -/
def AckThrows (pc : Consumer.Pc) (a : Consumer.Stmt) : Prop :=
  ∃ dl applied err, pc = .ack dl applied ∧ a = .fail err

/-- What the other handler does: nothing, or one step to the same counters. -/
def Matched (withEffect : Bool) (i : ℕ) (b : Book) (q : Pc) (d' : Consumer.Db)
    (pc' : Consumer.Pc) (thrown : Prop) : Prop :=
  (b.stats = d'.stats ∧ Follows withEffect pc' q) ∨
  ∃ event ch b' q', stmt withEffect i b q (event, ch) = some (b', q') ∧
    b'.stats = d'.stats ∧ Follows withEffect pc' q' ∧
    (¬ thrown → ∀ msg result, resume withEffect q event = some (.leave msg result) →
      Clear ch msg result)

/-- A try block that ends in an error of a message of the broker. -/
theorem clear_error {thrown : Thrown} {ch : Channel} :
    Clear ch (toMessage msg) (.error thrown) :=
  fun _ => ⟨_, deliveryCount_toMessage⟩

section

variable {thrown : Prop}

/-- A statement inside an attempt needs no step of the other handler, which waits for the whole of
it. -/
theorem Matched.idle (hb : b.stats = d'.stats) (hq : Follows withEffect pc' q) :
    Matched withEffect i b q d' pc' thrown :=
  Or.inl ⟨hb, hq⟩

/-- The try block goes on to another await. -/
theorem Matched.wait {event : Event} (hq : q ≠ .idle)
    (h : resume withEffect q event = some (.wait q')) (hb : b.stats = d'.stats)
    (hf : Follows withEffect pc' q') : Matched withEffect i b q d' pc' thrown := by
  refine Or.inr ⟨event, openChannel, b, q', ?_, hb, hf, ?_⟩
  · rw [stmt_of_ne_idle hq, h]
    rfl
  · intro _ msg result hleave
    rw [h] at hleave
    cases hleave

/-- The try block ends, and its counters or its catch block follow. -/
theorem Matched.leave {event : Event} {m : Message} {result : Except Thrown Bool}
    (ch : Channel) (hq : q ≠ .idle)
    (h : resume withEffect q event = some (.leave m result))
    (hb : (conclude i ch m result b).1.stats = d'.stats)
    (hf : Follows withEffect pc' (conclude i ch m result b).2)
    (hclear : ¬ thrown → Clear ch m result) : Matched withEffect i b q d' pc' thrown := by
  refine Or.inr ⟨event, ch, (conclude i ch m result b).1, (conclude i ch m result b).2, ?_, hb, hf,
    ?_⟩
  · rw [stmt_of_ne_idle hq, h]
    rfl
  · intro hnot msg result hleave
    rw [h] at hleave
    cases hleave
    exact hclear hnot

/-- An attempt that has thrown: another one, or the catch block. -/
theorem attemptFailed_matched {attempt : ℕ} {err : Err} (hb : b.stats = d.stats) :
    Matched withEffect i b (.applying (toMessage dl.msg) attempt)
      (Consumer.attemptFailed d dl attempt err).1 (Consumer.attemptFailed d dl attempt err).2
      thrown := by
  unfold Consumer.attemptFailed
  by_cases hlast : (!isTransientDbError err || decide (consumerLocalAttempts ≤ attempt)) = true
  · rw [if_pos hlast]
    have hresume : resume withEffect (.applying (toMessage dl.msg) attempt)
        (.applied (.error err)) = some (.leave (toMessage dl.msg) (.error (.other err))) := by
      rw [resume, applyResult, if_pos hlast]
    refine .leave openChannel (by simp) hresume ?_ ?_ fun _ => clear_error
    · rw [conclude, handleError_toMessage, handleError_stats, ← hb]
      rfl
    · rw [conclude, handleError_toMessage]
      exact handleError_settles
  · rw [if_neg hlast]
    have hresume : resume withEffect (.applying (toMessage dl.msg) attempt)
        (.applied (.error err)) = some (.wait (.applying (toMessage dl.msg) (attempt + 1))) := by
      rw [resume, applyResult, if_neg hlast]
    exact .wait (by simp) hresume hb (.applying rfl)

/-- `applyOrderPlaced` has returned: the handler waits for `afterEffect`, or goes to `ch.ack`. -/
theorem attemptDone_matched {attempt : ℕ} {applied : Bool} (hae : d.afterEffect = withEffect)
    (hb : b.stats = d'.stats) : Matched withEffect i b (.applying (toMessage dl.msg) attempt) d'
      (Consumer.attemptDone d dl applied) thrown := by
  unfold Consumer.attemptDone
  cases withEffect with
  | true =>
      rw [hae]
      have hresume : resume true (.applying (toMessage dl.msg) attempt) (.applied (.ok applied)) =
          some (.wait (.effect (toMessage dl.msg) applied)) := rfl
      exact .wait (by simp) hresume hb .effect
  | false =>
      rw [hae]
      exact .idle hb (.ackApplied rfl)

/-- The event that takes the try block to its counters. -/
theorem Follows.acks {applied : Bool} (h : Follows withEffect (.ack dl applied) q) :
    q ≠ .idle ∧ ∃ event, resume withEffect q event =
      some (.leave (toMessage dl.msg) (.ok applied)) := by
  cases h with
  | ackEffect => exact ⟨by simp, .effect .fulfilled, rfl⟩
  | ackApplied hw =>
      subst hw
      exact ⟨by simp, .applied (.ok applied), rfl⟩
  | applying hat => cases hat

/-- `ch.ack` does not throw. -/
theorem ack_matched {applied : Bool} (hf : Follows withEffect (.ack dl applied) q)
    (hb : b.stats = d.stats) (hd : d'.stats = (Consumer.countApplied d applied).stats) :
    Matched withEffect i b q d' .done thrown := by
  obtain ⟨hq, event, hevent⟩ := hf.acks
  refine .leave openChannel hq hevent ?_ .done fun _ => rfl
  rw [hd, countApplied_stats, ← hb]
  rfl

/-- `ch.ack` throws, and the catch block counts once more. -/
theorem ackThrows_matched {applied closed : Bool} {err : Err}
    (hf : Follows withEffect (.ack dl applied) q) (hb : b.stats = d.stats) (hthrown : thrown) :
    Matched withEffect i b q
      (Consumer.handleError (Consumer.countApplied d applied) dl.msg (isTransientDbError err)
        closed).1
      (Consumer.handleError (Consumer.countApplied d applied) dl.msg (isTransientDbError err)
        closed).2 thrown := by
  obtain ⟨hq, event, hevent⟩ := hf.acks
  have hconclude : conclude i ⟨some err, none, none⟩ (toMessage dl.msg) (.ok applied) b =
      handleError i ⟨some err, none, none⟩ (toMessage dl.msg) (.other err)
        ((b.count (if applied then .applied else .skipped)).attempt i .ack) := rfl
  refine .leave ⟨some err, none, none⟩ hq hevent ?_ ?_ fun hnot => absurd hthrown hnot
  · rw [hconclude, handleError_toMessage, handleError_stats, countApplied_stats, ← hb]
    rfl
  · rw [hconclude, handleError_toMessage]
    exact handleError_settles

end

/-- A handler in the middle of an attempt is followed by one that waits for it. -/
theorem Follows.attempt_eq {attempt : ℕ} (hat : attempting pc = some (dl, attempt))
    (h : Follows withEffect pc q) : q = .applying (toMessage dl.msg) attempt := by
  cases h with
  | applying hat' =>
      rw [hat] at hat'
      cases hat'
      rfl
  | _ => cases hat

/-- A handler that waits for `afterEffect` is followed by one that waits for it too. -/
theorem Follows.effect_eq {applied : Bool} (h : Follows withEffect (.effect dl applied) q) :
    q = .effect (toMessage dl.msg) applied := by
  cases h with
  | effect => rfl
  | applying hat => cases hat

/-- A handler that is left to settle its message is followed by one that has done so and returned.
-/
theorem Follows.settled_eq {v : Verdict} {closed : Bool}
    (h : Follows withEffect (.settle msg v closed) q) : q = .done := by
  cases h with
  | settle => rfl
  | applying hat => cases hat

/-- A handler that has no delivery, or has returned, is followed by one that does not run. -/
theorem Follows.closed (h : Follows withEffect pc q) (hpc : pc = .idle ∨ pc = .done) :
    ¬ q.Open := by
  cases h with
  | idle | settle | done => exact id
  | applying hat => rcases hpc with rfl | rfl <;> cases hat
  | _ => simp at hpc

/-- Every statement of a handler is matched. -/
theorem stmt_matched (h : Consumer.stmt i d pc a = some (d', pc')) (hae : d.afterEffect = withEffect)
    (hb : b.stats = d.stats) (hf : Follows withEffect pc q) :
    Matched withEffect i b q d' pc' (AckThrows pc a) := by
  cases Consumer.stmt_does h with
  -- both read the text of the message: a malformed one ends here, any other begins its first
  -- attempt
  | receives hdeliver =>
      rename_i n broker msg
      cases hf with
      | applying hat => cases hat
      | idle =>
          refine Or.inr ⟨.deliver (toMessage msg), openChannel, (receive i openChannel (toMessage msg)
            b).1, (receive i openChannel (toMessage msg) b).2, rfl, ?_, ?_, ?_⟩
          · unfold receive Consumer.receive
            rw [show (toMessage msg).content = msg.content from rfl]
            cases parseOrderPlacedEvent msg.content <;> simp [Book.deliver, Book.count, count,
              Book.attempt, hb]
          · unfold receive Consumer.receive
            rw [show (toMessage msg).content = msg.content from rfl]
            cases parseOrderPlacedEvent msg.content with
            | none => exact .settle
            | some event =>
                have hat : attempting (.connect ⟨msg, event⟩ 1) = some (⟨msg, event⟩, 1) := rfl
                exact .applying hat
          · intro _ msg result hleave
            cases hleave
  | connects =>
      rw [hf.attempt_eq rfl]
      exact .idle hb (.applying rfl)
  | noConnection =>
      rw [hf.attempt_eq rfl]
      exact attemptFailed_matched hb
  | begins =>
      rw [hf.attempt_eq rfl]
      exact .idle hb (.applying rfl)
  -- inside the transaction, from here to COMMIT, the other handler waits
  | marks _ =>
      rename_i dl attempt at₀ T inserted _
      rw [hf.attempt_eq rfl]
      refine .idle hb ?_
      cases inserted with
      | true => exact .applying rfl
      | false => exact .applying rfl
  | skips =>
      rw [hf.attempt_eq rfl]
      exact attemptDone_matched hae hb
  | refuses _ =>
      rw [hf.attempt_eq rfl]
      exact .idle hb (.applying rfl)
  | confirms _ _ =>
      rw [hf.attempt_eq rfl]
      exact .idle hb (.applying rfl)
  | commits =>
      rw [hf.attempt_eq rfl]
      exact attemptDone_matched hae hb
  -- committed and not heard of: the attempt goes on, to its ROLLBACK
  | commitsUnheard =>
      rw [hf.attempt_eq rfl]
      exact .idle hb (.applying rfl)
  | throws hruns =>
      rw [hf.attempt_eq (attempting_runs hruns)]
      exact .idle hb (.applying rfl)
  | rollsBack =>
      rw [hf.attempt_eq rfl]
      exact attemptFailed_matched hb
  -- the counters follow with the `ack`, and not before
  | effect =>
      rw [hf.effect_eq]
      exact .idle hb .ackEffect
  | effectFails =>
      rename_i dl applied err
      rw [hf.effect_eq]
      have hresume : resume withEffect (.effect (toMessage dl.msg) applied) (.effect .rejected) =
          some (.leave (toMessage dl.msg) (.error .afterEffect)) := rfl
      refine .leave openChannel (by simp) hresume ?_ ?_ fun _ => clear_error
      · rw [conclude, handleError_toMessage, handleError_stats, ← hb]
        rfl
      · rw [conclude, handleError_toMessage]
        exact handleError_settles
  | acks | ackLost => exact ack_matched hf hb rfl
  | ackThrows => exact ackThrows_matched hf hb ⟨_, _, _, rfl, rfl⟩
  | settles | settleLost =>
      rw [hf.settled_eq]
      exact .idle hb .done
  | aborts _ => exact .idle hb .crashed

/-- The option `afterEffect` is set once and for all. -/
theorem stmt_afterEffect (h : Consumer.stmt i d pc a = some (d', pc')) :
    d'.afterEffect = d.afterEffect := by
  cases Consumer.stmt_does h with
  | receives _ => exact Consumer.receive_counts.afterEffect
  | noConnection | rollsBack => exact Consumer.attemptFailed_counts.afterEffect
  | effectFails => exact Consumer.handleError_counts.afterEffect
  | acks | ackLost => exact Consumer.countApplied_counts.afterEffect
  | ackThrows =>
      exact (Consumer.countApplied_counts.trans Consumer.handleError_counts).afterEffect
  | _ => rfl

/-- What happens outside the handlers counts nothing and does not touch the option. -/
theorem env_keeps {e : Consumer.Env} (h : Consumer.env d e = some d') :
    d'.stats = d.stats ∧ d'.afterEffect = d.afterEffect := by
  cases e with
  | publish e | publishMalformed m | purge cutoff keys =>
      simp only [Consumer.env] at h
      split at h
      · cases h
        exact ⟨rfl, rfl⟩
      · cases h
  | returned i counted | tick dt =>
      cases h
      exact ⟨rfl, rfl⟩

/-! ## Runs -/

variable {s t : Consumer.St} {o : World ℕ Book Pc} {l : Consumer.Label} {as : List Consumer.Label}

/-- No `ch.ack` throws. -/
def AcksHeard (s : Consumer.St) : Consumer.Label → Prop
  | .call i a => ¬ AckThrows (s.proc i) a
  | .env _ => True

/-- One step of the consumer, and at most one of the outcomes. -/
theorem step_follows (hn : Consumer.machine.next s l = some t) (h : Refines s o) :
    t.shared.afterEffect = s.shared.afterEffect ∧
    (Refines t o ∨ ∃ act o', (machine s.shared.afterEffect).next o act = some o' ∧ Refines t o' ∧
      (AcksHeard s l → Heeded s.shared.afterEffect o act)) := by
  cases l with
  | env e =>
      obtain ⟨d, he, rfl⟩ := Procs.next_env hn
      obtain ⟨hstats, hae⟩ := env_keeps he
      refine ⟨hae, Or.inl ⟨h.stats.trans hstats.symm, ?_⟩⟩
      intro j
      change Follows d.afterEffect _ _
      rw [hae]
      exact h.handlers j
  | call i a =>
      obtain ⟨d, p, hst, rfl⟩ := Procs.next_call hn
      have hae := stmt_afterEffect hst
      -- if handler `i` is followed afterwards, all of them are
      have hothers : ∀ {q : Pc}, Follows s.shared.afterEffect p q →
          ∀ j, Follows d.afterEffect (Function.update s.proc i p j)
            (Function.update o.proc i q j) := by
        intro q hq j
        rw [hae]
        by_cases hj : j = i
        · subst hj
          rw [Function.update_self, Function.update_self]
          exact hq
        · rw [Function.update_of_ne hj, Function.update_of_ne hj]
          exact h.handlers j
      refine ⟨hae, ?_⟩
      rcases stmt_matched hst rfl h.stats (h.handlers i) with ⟨hb, hf⟩ | hstep
      -- a stutter: the other handler stays where it is
      · refine Or.inl ⟨hb, ?_⟩
        have hsame := hothers hf
        rwa [Function.update_eq_self] at hsame
      · obtain ⟨event, ch, b', q', hstmt, hb, hf, hclear⟩ := hstep
        exact Or.inr ⟨.call i (event, ch), ⟨b', Function.update o.proc i q'⟩,
          Procs.next_of_stmt (P := procs s.shared.afterEffect) hstmt, ⟨hb, hothers hf⟩, hclear⟩

/-- Before the first delivery. -/
def outcomesStart : World ℕ Book Pc := ⟨⟨emptyStats, [], []⟩, fun _ => .idle⟩

/-- Before the first delivery the counters are zero on both sides and no handler runs. -/
theorem refines_start (hinit : Consumer.machine.Init s) (hstats : s.shared.stats = emptyStats) :
    Refines s outcomesStart := by
  refine ⟨hstats.symm, ?_⟩
  intro i
  rw [show s.proc i = .idle from hinit.2 i]
  exact .idle

/-- A run of the consumer, matched step by step. Conditions on the two kinds of steps go
together as `step_follows` says. -/
theorem run_follows {ok : Consumer.St → Consumer.Label → Prop}
    {ok' : World ℕ Book Pc → Act ℕ (Event × Channel) Empty → Prop}
    (hok : ∀ u l o' act, ok u l →
      (AcksHeard u l → Heeded s.shared.afterEffect o' act) → ok' o' act)
    (hr : Consumer.machine.Run ok s as t) (h : Refines s o) :
    t.shared.afterEffect = s.shared.afterEffect ∧
    ∃ bs o', (machine s.shared.afterEffect).Run ok' o bs o' ∧ Refines t o' := by
  induction hr with
  | refl => exact ⟨rfl, [], o, Machine.Run.refl, h⟩
  | step _ hstepok hn ih =>
      obtain ⟨hae, bs, o', hr', href⟩ := ih
      obtain ⟨hae', hstep⟩ := step_follows hn href
      refine ⟨hae'.trans hae, ?_⟩
      rcases hstep with hsame | ⟨act, o'', hact, href', hheeded⟩
      -- nothing to add for a statement inside an attempt
      · exact ⟨bs, o', hr', hsame⟩
      · rw [hae] at hact hheeded
        exact ⟨bs ++ [act], o'', hr'.step (hok _ _ _ _ hstepok hheeded) hact, href'⟩

/-- Every run of the consumer is one of the outcomes: at every moment the counters are the
same, and every handler is where its counterpart is. -/
theorem handlers_follow (hinit : Consumer.machine.Init s) (hstats : s.shared.stats = emptyStats)
    (hr : Consumer.machine.Run Machine.Always s as t) :
    ∃ bs o, (machine s.shared.afterEffect).Run Machine.Always outcomesStart bs o ∧
      Refines t o :=
  (run_follows (fun _ _ _ _ _ _ => trivial) hr (refines_start hinit hstats)).2

/-- As long as no `ch.ack` throws, the deliveries are the outcomes once every handler has
returned. -/
theorem counters_balance (hinit : Consumer.machine.Init s) (hstats : s.shared.stats = emptyStats)
    (hr : Consumer.machine.Run AcksHeard s as t)
    (hover : ∀ i, t.proc i = .idle ∨ t.proc i = .done) :
    t.shared.stats.deliveries = outcomes t.shared.stats := by
  obtain ⟨-, bs, o, hr', href⟩ :=
    run_follows (fun _ _ _ _ hheard hheeded => hheeded hheard) hr (refines_start hinit hstats)
  have hinit' : (machine s.shared.afterEffect).Init outcomesStart := ⟨rfl, fun _ => rfl⟩
  rw [← href.stats]
  refine (counted_run hinit' hr').balance ?_
  intro i
  exact (href.handlers i).closed (hover i)

end Marketplace.Outbox.Outcomes
