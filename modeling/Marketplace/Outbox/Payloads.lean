import Marketplace.Outbox.RelaySafety

/-!
# Outbox.Payloads — what a row carries, the relay leaves as it is

The relay only ever writes `published_at`, `attempts` and `last_error`, and it publishes what
it has read. So what is true of the other columns of every inserted row is true of every
version of a row and of every message (`Carried`). And a pass deletes no row and makes no
message arrive (`Keeps`).
-/

namespace Marketplace.Outbox.Relay

open Core

variable {Q Q' : OutboxRow → Prop} {i : ℕ} {d d' : Db} {pc pc' : Pc} {a : Stmt} {s t : St}
  {l : Label}

/-- `Q` does not depend on the columns that the relay writes. -/
structure Stable (Q : OutboxRow → Prop) : Prop where
  published : ∀ at₀ row, Q row → Q (markPublishedRow at₀ row)
  failed : ∀ message row, Q row → Q (markFailedRow message row)

/-- The rows that the pass has read and not published yet. -/
def Pc.unsent : Pc → List OutboxRow
  | .lock _ _ _ rows => rows
  | .publish _ _ todo => todo
  | _ => []

/-- Every row and every message satisfies `Q`. -/
structure Carry (Q : OutboxRow → Prop) (d : Db) : Prop where
  rows : d.outbox.All fun _ => Q
  sends : ∀ n s, d.sends n = some s → Q s.row

/-- The same, with what the passes have in hand. -/
def Carried (Q : OutboxRow → Prop) : St → Prop :=
  Procs.Holds (Carry Q) fun _ _ pc => ∀ row ∈ pc.unsent, Q row

/-- What all rows and messages satisfy may be replaced by anything that follows from it. -/
theorem Carried.imp (hq : ∀ row, Q row → Q' row) (h : Carried Q s) : Carried Q' s := by
  refine ⟨⟨h.1.rows.imp fun _ => hq, ?_⟩, ?_⟩
  · intro n send hsend
    exact hq _ (h.1.sends n send hsend)
  · intro i row hrow
    exact hq row (h.2 i row hrow)

/-! ## The UPDATEs -/

/-- The UPDATE of one row keeps a property that its function keeps. -/
theorem Carry.update {k : EventId} {f : OutboxRow → OutboxRow} (h : Carry Q d)
    (hf : ∀ row, Q row → Q (f row)) (hu : update i d k f = some d') : Carry Q d' := by
  unfold Relay.update at hu
  rw [Option.map_eq_some_iff] at hu
  rcases hu with ⟨⟨T, r⟩, hT, rfl⟩
  refine ⟨?_, h.sends⟩
  rcases Table.updateWhere_cases hT with ⟨rfl, -, -⟩ | ⟨row, hview, -, -, -, rfl⟩
  · exact h.rows
  · refine h.rows.put ?_
    intro row' hrow'
    cases hrow'
    exact hf row (h.rows.view hview)

/-- So do the UPDATEs of all confirmed rows, one after another. -/
theorem Carry.updateAll {at₀ : ℕ} {rows : List OutboxRow} (hQ : Stable Q) (h : Carry Q d)
    (hu : updateAll i at₀ d rows = some d') : Carry Q d' := by
  induction rows generalizing d with
  | nil =>
      cases hu
      exact h
  | cons row rows ih =>
      rw [Relay.updateAll, Option.bind_eq_some_iff] at hu
      rcases hu with ⟨d₁, hu₁, hu⟩
      exact ih (h.update (hQ.published at₀) hu₁) hu

/-! ## One step -/

/-- COMMIT makes the versions of the pass the committed ones, and each of them had the property.
-/
theorem Carry.commit (h : Carry Q d) : Carry Q (d.commit i) := ⟨h.rows.commit, h.sends⟩

/-- ROLLBACK drops versions and adds none. -/
theorem Carry.rollback (h : Carry Q d) : Carry Q (d.rollback i) := ⟨h.rows.rollback, h.sends⟩

/-- A message has the property of the row that it is sent for. -/
theorem Carry.publish {row : OutboxRow} (h : Carry Q d) (hrow : Q row) :
    Carry Q (d.publish i row) := by
  refine ⟨h.rows, ?_⟩
  intro n s hs
  by_cases hn : n = d.nextSend
  · subst hn
    rw [publish_sends_self] at hs
    cases hs
    exact hrow
  · rw [publish_sends_ne hn] at hs
    exact h.sends n s hs

/-- What becomes of a message changes nothing of its row. -/
theorem Carry.setSend {n : ℕ} {send send' : Send} (h : Carry Q d) (hs : d.sends n = some send)
    (hrow : send'.row = send.row) : Carry Q (setSend d n send') := by
  refine ⟨h.rows, ?_⟩
  intro m x hx
  change Function.update d.sends n (some send') m = some x at hx
  by_cases hm : m = n
  · subst hm
    rw [Function.update_self] at hx
    cases hx
    rw [hrow]
    exact h.sends m send hs
  · rw [Function.update_of_ne hm] at hx
    exact h.sends m x hx

/-- The next statement of a pass keeps the property in rows and messages, and in the rows that the
pass has read and still has to publish. -/
theorem Runs.carry (hQ : Stable Q) (hrun : Runs i d pc d' pc') (h : Carry Q d)
    (hpc : ∀ row ∈ pc.unsent, Q row) : Carry Q d' ∧ ∀ row ∈ pc'.unsent, Q row := by
  have nothing : ∀ row ∈ ([] : List OutboxRow), Q row := by
    intro row hrow
    cases hrow
  cases hrun with
  | select => exact ⟨h, nothing⟩
  | skip => exact ⟨h, hpc⟩
  -- the pass takes one more row in hand, as it is committed
  | @take at₀ n k todo rows row hv =>
      rcases visit_spec hv with ⟨-, hbase, -⟩
      have hrow : Q row := (h.rows k).1 row hbase
      refine ⟨⟨h.rows.put ?_, h.sends⟩, ?_⟩
      · intro v hv
        cases hv
        exact hrow
      · intro row' hrow'
        rcases List.mem_append.mp hrow' with hrow' | hrow'
        · exact hpc row' hrow'
        · rw [List.mem_singleton.mp hrow']
          exact hrow
  | claimed =>
      refine ⟨h, ?_⟩
      unfold Relay.claimed
      split
      · exact nothing
      · exact hpc
  | commitEmpty => exact ⟨h.commit, nothing⟩
  -- the row leaves the hand as a message
  | publish =>
      refine ⟨h.publish (hpc _ List.mem_cons_self), ?_⟩
      intro row hrow
      exact hpc row (List.mem_cons_of_mem _ hrow)
  -- from here on there is nothing left to publish
  | allSent => exact ⟨h, nothing⟩
  | closed => exact ⟨h, nothing⟩
  | sorted => exact ⟨h, nothing⟩
  | hook => exact ⟨h, nothing⟩
  | noneConfirmed => exact ⟨h, nothing⟩
  | markPublished hu => exact ⟨h.updateAll hQ hu, nothing⟩
  | markFailed hu => exact ⟨h.update (hQ.failed _) hu, nothing⟩
  | marked => exact ⟨h, nothing⟩
  | commit => exact ⟨h.commit, nothing⟩
  | rollback => exact ⟨h.rollback, nothing⟩

/-- So does any statement: a failure, a crash and the beginning write no row and send no message.
-/
theorem stmt_carry (hQ : Stable Q) (h : Carry Q d) (hpc : ∀ row ∈ pc.unsent, Q row)
    (hst : stmt i d pc a = some (d', pc')) : Carry Q d' ∧ ∀ row ∈ pc'.unsent, Q row := by
  rcases stmt_cases hst with ⟨-, hrun⟩ | ⟨err, rfl, rfl⟩ | ⟨-, rfl, rfl⟩ | ⟨at₀, n, -, rfl, rfl⟩
  · exact hrun.carry hQ h hpc
  · exact ⟨h, by simp [Pc.unsent]⟩
  · exact ⟨h.rollback, by simp [Pc.unsent]⟩
  · exact ⟨h, by simp [Pc.unsent]⟩

/-- The other parties bring in rows by INSERT only, and those are asked to have the property. -/
theorem env_carry {e : Env} (h : Carry Q d) (hinsert : ∀ row, e = .insert row → Q row)
    (he : env d e = some d') : Carry Q d' := by
  have message : ((∃ n, e = .accept n) ∨ (∃ n, e = .confirm n) ∨
      ∃ n message, e = .reject n message) → Carry Q d' := by
    intro hmsg
    rcases env_message hmsg he with ⟨n, s, s', hs, hc, rfl⟩
    exact h.setSend hs hc.row
  cases e with
  | insert row =>
      rcases env_insert he with ⟨-, -, -, rfl⟩
      refine ⟨h.rows.settle ?_, h.sends⟩
      intro v hv
      cases hv
      exact hinsert row rfl
  | accept n => exact message (Or.inl ⟨n, rfl⟩)
  | confirm n => exact message (Or.inr (Or.inl ⟨n, rfl⟩))
  | reject n m => exact message (Or.inr (Or.inr ⟨n, m, rfl⟩))
  | purge cutoff ids =>
      rcases env_purge he with ⟨-, rfl⟩
      refine ⟨?_, h.sends⟩
      intro k
      by_cases hk : k ∈ ids
      -- a purged row is gone, with its property
      · simp only [hk, if_true]
        refine ⟨?_, ?_⟩
        · intro v hv
          cases hv
        · intro j v hv
          cases hv
      · simp only [hk, if_false]
        exact h.rows k
  | tick dt =>
      cases he
      exact ⟨h.rows, h.sends⟩

/-- Every step keeps what the rows and the messages carry, if every new row has it. -/
theorem Carried.next (hQ : Stable Q) (h : Carried Q s)
    (hinsert : ∀ row, l = .env (.insert row) → Q row) (hn : machine.next s l = some t) :
    Carried Q t := by
  cases l with
  | call i a =>
      rcases Procs.next_call hn with ⟨d, p, hst, rfl⟩
      rcases stmt_carry hQ h.1 (h.2 i) hst with ⟨hd, hp⟩
      refine ⟨hd, ?_⟩
      exact Procs.forall_update (Q := fun _ pc => ∀ row ∈ Pc.unsent pc, Q row) hp
        fun j _ => h.2 j
  | env e =>
      rcases Procs.next_env hn with ⟨d, hd, rfl⟩
      refine ⟨env_carry h.1 ?_ hd, h.2⟩
      rintro row rfl
      exact hinsert row rfl

/-- At the start there are no rows and no messages. -/
theorem Carried.init (h : machine.Init s) : Carried Q s := by
  rcases h with ⟨⟨houtbox, hsends, -, -⟩, hidle⟩
  refine ⟨⟨?_, ?_⟩, ?_⟩
  · intro k
    rw [houtbox k]
    refine ⟨?_, ?_⟩
    · intro v hv
      cases hv
    · intro j v hv
      cases hv
  · intro n send hsend
    rw [hsends n] at hsend
    cases hsend
  · intro i row hrow
    rw [hidle i] at hrow
    cases hrow

/-! ## What a pass leaves -/

/-- Every reachable state of the relay satisfies the invariant and the local facts. -/
theorem holds_of_reachable (h : machine.Reachable s) : Procs.Holds Inv Loc s := by
  rcases h with ⟨s₀, as, hinit, hr⟩
  exact holds hinit hr

/-- No row is deleted, and no message arrives. -/
structure Keeps (d d' : Db) : Prop where
  inserted : d'.inserted = d.inserted
  rows : ∀ k, (d.outbox k).base.isSome → (d'.outbox k).base.isSome
  accepted : ∀ n s', d'.sends n = some s' → s'.accepted = true →
    ∃ s, d.sends n = some s ∧ s.accepted = true ∧ s'.row = s.row

/-- A change that leaves the messages alone and deletes no row keeps what is asked for here. -/
theorem Keeps.of_same (hinserted : d'.inserted = d.inserted) (hsends : d'.sends = d.sends)
    (hrows : ∀ k, (d.outbox k).base.isSome → (d'.outbox k).base.isSome) : Keeps d d' := by
  refine ⟨hinserted, hrows, ?_⟩
  intro n s hs hacc
  rw [hsends] at hs
  exact ⟨s, hs, hacc, rfl⟩

/-- No statement of a pass deletes a row, and no message is accepted because of one. -/
theorem Effect.keeps (he : Effect i d d' pc') : Keeps d d' := by
  cases he with
  | quiet => exact Keeps.of_same rfl rfl fun _ => id
  | write hown =>
      refine Keeps.of_same rfl rfl ?_
      intro k hk
      rw [hown.base k]
      exact hk
  | rollback =>
      refine Keeps.of_same rfl rfl ?_
      intro k hk
      change ((d.outbox.rollback i) k).base.isSome
      rw [Table.rollback_apply, Slot.rollback_base]
      exact hk
  -- the new message has not been accepted yet
  | publish =>
      refine ⟨rfl, fun _ => id, ?_⟩
      intro n s hs hacc
      by_cases hn : n = d.nextSend
      · subst hn
        rw [publish_sends_self] at hs
        cases hs
        cases hacc
      · rw [publish_sends_ne hn] at hs
        exact ⟨s, hs, hacc, rfl⟩
  | @commit at₀ C F result hw =>
      refine Keeps.of_same rfl rfl ?_
      intro k hk
      change ((d.outbox.commit i) k).base.isSome
      by_cases hmem : k ∈ (marksPublished at₀ C ++ marksFailed F).map Prod.fst
      -- a row that the pass marks stays, with its marks
      · rcases List.mem_map.mp hmem with ⟨p, hp, rfl⟩
        rw [hw.commit_written hp, Option.isSome_map]
        exact hk
      · rw [hw.commit_other hmem]
        exact hk

end Marketplace.Outbox.Relay
