import Marketplace.Outbox.RelayPreservation

/-!
# Outbox.RelaySafety — what the relay guarantees

Only rows that the broker confirmed are marked published, no two passes have one row in
hand, `attempts` is the number of committed passes that were refused the row, and a pass
that does not commit changes nothing. Without crashes and rollbacks the broker takes no
row twice.
-/

namespace Marketplace.Outbox.Relay

open Core

variable {i j : ℕ} {d d' : Db} {pc pc' : Pc} {a : Stmt} {e : Env}

/-! ## All runs -/

/-- At the start there are no rows and no messages, and no pass has committed. -/
theorem Init.inv (h : Init d) : Inv d := by
  rcases h with ⟨houtbox, hsends, hinserted, hpasses⟩
  have nosend : ∀ n s, d.sends n ≠ some s := by
    intro n s hs
    rw [hsends n] at hs
    cases hs
  have norow : ∀ k row, (d.outbox k).base ≠ some row := by
    intro k row hr
    rw [houtbox k] at hr
    cases hr
  exact
    { unsent := fun n _ => hsends n
      absent := fun k _ => houtbox k
      distinct := hinserted ▸ List.nodup_nil
      rows := fun k row hr => absurd hr (norow k row)
      sent := fun n s hs => absurd hs (nosend n s)
      once := fun n _ s _ hs => absurd hs (nosend n s)
      accepted := fun n s hs => absurd hs (nosend n s)
      refused := fun n s _ hs => absurd hs (nosend n s)
      settled := fun n s hs => absurd hs (nosend n s)
      passes := hpasses ▸ List.nodup_nil
      published := fun k row hr => absurd hr (norow k row)
      attempts := fun k row hr => absurd hr (norow k row) }

/-- An idle pass holds nothing and has sent nothing. -/
theorem Init.loc (h : Init d) (i : ℕ) : Loc i d .idle := by
  rcases h with ⟨houtbox, hsends, hinserted, hpasses⟩
  have free : ∀ k, ¬ (d.outbox k).Held i := by
    intro k
    rw [houtbox k]
    exact Slot.not_held_settled
  refine
    { writes := fun _ => Table.Writes.nil free
      nodup := List.nodup_nil
      pending := fun k hk => absurd hk (free k)
      messages := ?_
      passes := ?_
      visits := ?_ }
  · intro n s hs
    rw [hsends n] at hs
    cases hs
  · intro hp
    rw [hpasses] at hp
    cases hp
  · intro at₀ n todo rows hpc
    cases hpc

/-- The invariant and the local facts hold in every reachable state. -/
theorem holds {ok : St → Label → Prop} {s₀ s : St} {as : List Label} (hinit : machine.Init s₀)
    (hrun : machine.Run ok s₀ as s) : Procs.Holds Inv Loc s := by
  refine Procs.rely_guarantee (P := procs) ok Inv Loc Rely ?_ ?_ ?_ hrun ?_
  · intro s i a d pc _ hs hst
    have he := stmt_effect hs.1 (hs.2 i) hst
    exact ⟨stmt_inv hs.1 (hs.2 i) hst, stmt_loc hs.1 (hs.2 i) hst, fun j hj => he.rely hs.1 hj⟩
  · intro s e d _ hs hd
    exact env_inv hs.1 hd
  · intro j d d' pc _ _ hrely hl
    exact hl.rely hrely
  · rcases hinit with ⟨hi, hidle⟩
    refine ⟨Init.inv hi, ?_⟩
    intro i
    rw [hidle i]
    exact Init.loc hi i

/-! ## Selection -/

/-- The SELECT finds the pending rows. -/
theorem mem_candidates (hinv : Inv d) {k : EventId} {row : OutboxRow}
    (hrow : (d.outbox k).base = some row) : row ∈ candidates d ↔ Pending row := by
  unfold candidates
  rw [List.mem_insertionSort, List.mem_filterMap]
  constructor
  · rintro ⟨k', -, h⟩
    exact of_decide_eq_true (Option.filter_eq_some_iff.mp h).2
  · intro hp
    refine ⟨k, hinv.base_inserted hrow, ?_⟩
    rw [Option.filter_eq_some_iff]
    exact ⟨hrow, decide_eq_true hp⟩

/-! ## Passes that do not commit -/

/-- A pass that has committed takes no further statement. -/
theorem Pc.Committed.final (h : pc.Committed) (d : Db) (a : Stmt) : stmt i d pc a = none := by
  cases pc with
  | done result => cases a <;> simp [stmt, Pc.Open]
  | _ => exact h.elim

/-- A statement that does not commit changes no committed row. -/
theorem Effect.uncommitted (he : Effect i d d' pc') (h : ¬ pc'.Committed) (k : EventId) :
    (d'.outbox k).base = (d.outbox k).base := by
  cases he with
  | quiet => rfl
  | write hown => exact hown.base k
  | rollback => exact Slot.rollback_base
  | publish => rfl
  | commit => exact absurd trivial h

/-- A pass that has not committed has changed no committed row. -/
theorem uncommitted_unchanged {ok : St → Label → Prop} {s t u : St} {as : List Label}
    (hs : Procs.Holds Inv Loc s) (hn : machine.next s (.call i a) = some t)
    (hrun : machine.Run ok t as u) (hu : ¬ (u.proc i).Committed) (k : EventId) :
    (t.shared.outbox k).base = (s.shared.outbox k).base := by
  rcases Procs.next_call hn with ⟨d, pc, hst, rfl⟩
  refine (stmt_effect hs.1 (hs.2 i) hst).uncommitted ?_ k
  intro hc
  apply hu
  have hpc : (World.mk d (Function.update s.proc i pc)).proc i = pc := Function.update_self ..
  rw [Procs.Run.proc_final hrun (fun d a => by rw [hpc]; exact hc.final d a), hpc]
  exact hc

/-! ## Runs without crashes and rollbacks -/

/-- No pass crashes and none rolls back. -/
def Undisturbed (s : St) : Label → Prop
  | .call _ .abort => False
  | .call i .run => ¬ (s.proc i).Rolling
  | _ => True

/-- The broker has refused the message. -/
def WasRefused (s : Send) : Prop := ∃ r, s.seen = some r ∧ r.Refused

/-- A pass hears one thing about a row. -/
theorem Inv.heard_unique (hinv : Inv d) {k : EventId} {r r' : Settled} (h : Heard d i k r)
    (h' : Heard d i k r') : r = r' := by
  rcases h with ⟨n, s, hs, hpass, hrow, hseen⟩
  rcases h' with ⟨m, s', hs', hpass', hrow', hseen'⟩
  have hnm := hinv.once n m s s' hs hs' (hpass.trans hpass'.symm) (hrow.trans hrow'.symm)
  subst hnm
  rw [hs] at hs'
  cases hs'
  rw [hseen] at hseen'
  exact Option.some.inj hseen'

/-- Where a message has left its row: refused, still in the hand of its pass, or published,
if it has not been deleted since. -/
def Fate (d : Db) (s : Send) : Prop :=
  WasRefused s ∨ (d.outbox s.row.id).Held s.pass ∨
    ∀ row, (d.outbox s.row.id).base = some row → row.publishedAt ≠ none

/-- The fate of a message depends on its own row only. -/
theorem Fate.congr {s : Send} (h : Fate d s) (hrow : d'.outbox s.row.id = d.outbox s.row.id) :
    Fate d' s := by
  unfold Fate
  rw [hrow]
  exact h

/-- A row has one message that was not refused. -/
structure Single (d : Db) : Prop where
  fate : ∀ n s, d.sends n = some s → Fate d s
  single : ∀ n m s s', d.sends n = some s → d.sends m = some s' → s.row.id = s'.row.id →
    ¬ WasRefused s → ¬ WasRefused s' → n = m

/-- The pass fails only at its ROLLBACK, or when it crashes. -/
theorem stmt_failed (h : stmt i d pc a = some (d', pc')) (hf : pc'.Failed) :
    a = .abort ∨ a = .run ∧ pc.Rolling := by
  rcases stmt_cases h with ⟨rfl, hrun⟩ | ⟨err, -, rfl⟩ | ⟨rfl, -, -⟩ | ⟨at₀, n, -, -, rfl⟩
  · right
    refine ⟨rfl, ?_⟩
    cases hrun with
    | rollback => trivial
    | claimed =>
        unfold claimed at hf
        split at hf <;> exact hf.elim
    | _ => exact hf.elim
  · exact hf.elim
  · exact Or.inl rfl
  · exact hf.elim

/-- A row in hand has no message that was not refused, but for the own one. -/
theorem Single.in_hand (h : Single d) (hl : Loc i d pc) {n : ℕ} {s : Send}
    (hs : d.sends n = some s) (href : ¬ WasRefused s) (hheld : (d.outbox s.row.id).Held i) :
    s.pass = i := by
  rcases h.fate n s hs with hr | hother | hpub
  · exact absurd hr href
  · exact hother.unique hheld
  · rcases hl.pending s.row.id hheld with ⟨row, hrow, hp⟩
    exact absurd hp.1 (hpub row hrow)

/-- A statement of a pass that does not fail keeps it: while a message for a row is neither
refused nor published, its pass has the row locked. -/
theorem Single.stmt (hsingle : Single d) (hinv : Inv d) (hl : Loc i d pc)
    (he : Effect i d d' pc') (hf : ¬ pc'.Failed) : Single d' := by
  cases he with
  | quiet => exact hsingle
  -- drafts: the locks stay, and the committed versions too
  | @write T _ hown _ hheld =>
      refine ⟨?_, hsingle.single⟩
      intro n s hs
      rcases hsingle.fate n s hs with hr | hh | hp
      · exact Or.inl hr
      · right
        left
        by_cases hi : s.pass = i
        · rw [hi] at hh ⊢
          exact hheld _ hh
        · exact (hown.kept s.pass hi).held_iff.mpr hh
      · right
        right
        intro row hrow
        exact hp row ((hown.base _).symm.trans hrow)
  -- a ROLLBACK would let go of rows whose messages may have been taken
  | rollback hfail => exact absurd hfail hf
  | @publish row _ hrow hheld honce _ =>
      have cases_send : ∀ n s, (d.publish i row).sends n = some s →
          n = d.nextSend ∧ s = ⟨i, row, false, none⟩ ∨ d.sends n = some s := by
        intro n s hs
        by_cases hn : n = d.nextSend
        · subst hn
          rw [publish_sends_self] at hs
          cases hs
          exact Or.inl ⟨rfl, rfl⟩
        · exact Or.inr ((publish_sends_ne hn).symm.trans hs)
      -- no other message for the row is outstanding: it would be one of this pass
      have fresh : ∀ n s, d.sends n = some s → ¬ WasRefused s → s.row.id ≠ row.id := by
        intro n s hs href heq
        exact honce n s hs (hsingle.in_hand hl hs href (heq ▸ hheld)) heq
      constructor
      · intro n s hs
        rcases cases_send n s hs with ⟨-, rfl⟩ | hs
        · exact Or.inr (Or.inl hheld)
        · exact hsingle.fate n s hs
      · intro n m s s' hs hs' heq href href'
        rcases cases_send n s hs with ⟨rfl, rfl⟩ | hs
        · rcases cases_send m s' hs' with ⟨rfl, -⟩ | hs'
          · rfl
          · exact absurd heq.symm (fresh m s' hs' href')
        · rcases cases_send m s' hs' with ⟨rfl, rfl⟩ | hs'
          · exact absurd heq (fresh n s hs href)
          · exact hsingle.single n m s s' hs hs' heq href href'
  | @commit at₀ C F result hw ho _ =>
      refine ⟨?_, hsingle.single⟩
      intro n s hs
      by_cases hi : s.pass = i
      · rcases ho.all n s hs hi with ⟨-, hC⟩ | ⟨hr, -⟩
        · -- its row was confirmed, so the COMMIT has published it
          right
          right
          intro row' hrow'
          rcases commit_rows hw hl.pending hrow' with ⟨hno, -⟩ | ⟨-, row, -, rfl⟩ | ⟨m, _, hF, -⟩
          · exact absurd hC hno
          · exact Option.some_ne_none _
          · -- and no message of one pass is both confirmed and refused
            rcases ho.failed _ (List.mem_map_of_mem hF) with ⟨r, href, hr⟩
            have heq := hinv.heard_unique hr (ho.confirmed _ hC)
            rw [heq] at href
            exact href.elim
        · exact Or.inl hr
      · rcases hsingle.fate n s hs with hr | hh | hp
        · exact Or.inl hr
        · right
          left
          exact (Table.Kept.commit (Ne.symm hi)).held_iff.mpr hh
        · right
          right
          intro row' hrow'
          rcases commit_rows hw hl.pending hrow' with ⟨-, -, hr⟩ | ⟨-, row, hr, rfl⟩ |
            ⟨_, row, -, hr, -, rfl⟩
          · exact hp row' hr
          · exact Option.some_ne_none _
          · exact hp row hr

/-- Events that put no lock on a row and take none away. -/
theorem Single.env (hsingle : Single d) (hinv : Inv d) (h : env d e = some d') : Single d' := by
  have message : ((∃ n, e = .accept n) ∨ (∃ n, e = .confirm n) ∨
      ∃ n message, e = .reject n message) → Single d' := by
    intro he
    rcases env_message he h with ⟨n, s, s', hs, hc, rfl⟩
    -- every message was there before, and what was refused stays refused
    have kept : ∀ m x, (setSend d n s').sends m = some x →
        ∃ y, d.sends m = some y ∧ x.row = y.row ∧ x.pass = y.pass ∧
          (WasRefused y → WasRefused x) := by
      intro m x hx
      by_cases hm : m = n
      · subst hm
        rw [show (setSend d m s').sends m = some s' from Function.update_self ..] at hx
        cases hx
        refine ⟨s, hs, hc.row, hc.pass, ?_⟩
        rintro ⟨r, hr, href⟩
        rcases hc.seen with hnone | hseen
        · rw [hnone] at hr
          cases hr
        · exact ⟨r, hseen.trans hr, href⟩
      · exact ⟨x, (Function.update_of_ne hm ..).symm.trans hx, rfl, rfl, id⟩
    constructor
    · intro m x hx
      rcases kept m x hx with ⟨y, hy, hrow, hpass, href⟩
      unfold Fate
      rw [hrow, hpass]
      exact (hsingle.fate m y hy).imp_left href
    · intro m m' x x' hx hx' heq hr hr'
      rcases kept m x hx with ⟨y, hy, hrow, -, href⟩
      rcases kept m' x' hx' with ⟨y', hy', hrow', -, href'⟩
      exact hsingle.single m m' y y' hy hy' (by rw [← hrow, ← hrow']; exact heq)
        (fun h => hr (href h)) (fun h => hr' (href' h))
  cases e with
  | insert row =>
      rcases env_insert h with ⟨hid, -, -, rfl⟩
      refine ⟨?_, hsingle.single⟩
      intro n s hs
      have hne : s.row.id ≠ row.id := fun heq => hid (heq ▸ hinv.sent n s hs)
      exact (hsingle.fate n s hs).congr (Function.update_of_ne hne ..)
  | accept n => exact message (Or.inl ⟨n, rfl⟩)
  | confirm n => exact message (Or.inr (Or.inl ⟨n, rfl⟩))
  | reject n m => exact message (Or.inr (Or.inr ⟨n, m, rfl⟩))
  | purge cutoff ids =>
      rcases env_purge h with ⟨hall, rfl⟩
      refine ⟨?_, hsingle.single⟩
      intro n s hs
      by_cases hk : s.row.id ∈ ids
      -- a deleted row: there is nothing left to be asked of it
      · right
        right
        intro row hrow
        dsimp only at hrow
        rw [if_pos hk] at hrow
        cases hrow
      · exact (hsingle.fate n s hs).congr (if_neg hk)
  | tick dt =>
      cases h
      exact ⟨hsingle.fate, hsingle.single⟩

/-- Without crashes and rollbacks a row has at most one message that the broker took. -/
theorem single_of_undisturbed {s₀ s : St} {as : List Label} (hinit : machine.Init s₀)
    (hrun : machine.Run Undisturbed s₀ as s) : Single s.shared := by
  induction hrun with
  | refl =>
      have hnone : ∀ n s, s₀.shared.sends n ≠ some s := by
        intro n s hs
        rw [hinit.1.2.1 n] at hs
        cases hs
      exact ⟨fun n s hs => absurd hs (hnone n s), fun n _ s _ hs => absurd hs (hnone n s)⟩
  | @step as s t act hr hok hn ih =>
      have hs := holds hinit hr
      cases act with
      | call i a =>
          rcases Procs.next_call hn with ⟨d, pc, hst, rfl⟩
          refine ih.stmt hs.1 (hs.2 i) (stmt_effect hs.1 (hs.2 i) hst) ?_
          intro hf
          rcases stmt_failed hst hf with rfl | ⟨rfl, hroll⟩
          · exact hok
          · exact hok hroll
      | env e =>
          rcases Procs.next_env hn with ⟨d, hd, rfl⟩
          exact ih.env hs.1 hd

/-! ## The guarantees -/

/-- The broker has taken a message for row `k`, and has said so. -/
def Confirmed (d : Db) (k : EventId) : Prop :=
  ∃ n s, d.sends n = some s ∧ s.row.id = k ∧ s.accepted = true ∧ s.seen = some .confirmed

/-- The broker takes row `k` at most once. -/
def TakenOnce (d : Db) (k : EventId) : Prop :=
  ∀ n m s s', d.sends n = some s → d.sends m = some s' → s.row.id = k → s'.row.id = k →
    s.accepted = true → s'.accepted = true → n = m

/-- What a pass has heard to be confirmed the broker has taken. -/
theorem Heard.confirmed (hinv : Inv d) {k : EventId} (h : Heard d i k .confirmed) :
    Confirmed d k := by
  rcases h with ⟨n, s, hs, -, hrow, hseen⟩
  exact ⟨n, s, hs, hrow, hinv.accepted n s hs hseen, hseen⟩

/-- Then no row has two messages that the broker took, because a message that it took was not
refused. -/
theorem Single.takenOnce (h : Single d) (hinv : Inv d) (k : EventId) : TakenOnce d k := by
  intro n m s s' hs hs' hrow hrow' hacc hacc'
  have notRefused : ∀ n s, d.sends n = some s → s.accepted = true → ¬ WasRefused s := by
    rintro n s hs hacc ⟨r, hr, href⟩
    rw [hinv.refused n s r hs hr href] at hacc
    cases hacc
  exact h.single n m s s' hs hs' (hrow.trans hrow'.symm) (notRefused n s hs hacc)
    (notRefused m s' hs' hacc')

/-- A pass that is about to roll back has no rows in hand any more. -/
theorem Pc.not_rolling {k : EventId} (hk : k ∈ pc.ids) : ¬ pc.Rolling := by
  intro hroll
  cases pc with
  | rollback err => cases hk
  | _ => exact hroll

/-- A row in hand is locked, and no other pass has it. -/
theorem in_hand_exclusive {s : St} (hs : Procs.Holds Inv Loc s) {k : EventId}
    (hi : k ∈ (s.proc i).ids) (hj : k ∈ (s.proc j).ids) : i = j := by
  have held : ∀ p, k ∈ (s.proc p).ids → (s.shared.outbox k).Held p := by
    intro p hp
    exact ((hs.2 p).in_hand (Pc.not_rolling hp) hp).1
  exact (held i hi).unique (held j hj)

/-- In every interleaving of passes, broker events, new rows and deletions, with crashes and
errors anywhere. -/
theorem relay_safety (s₀ s : St) (as : List Label) (hinit : machine.Init s₀)
    (hrun : machine.Run Machine.Always s₀ as s) :
    (∀ k row, (s.shared.outbox k).base = some row → row.publishedAt ≠ none →
      Confirmed s.shared k) ∧
    (∀ i j k, k ∈ (s.proc i).ids → k ∈ (s.proc j).ids → i = j) ∧
    (machine.Run Undisturbed s₀ as s → ∀ k, TakenOnce s.shared k) ∧
    (∀ k row, (s.shared.outbox k).base = some row → row.publishedAt = none →
      row.attempts = refusals s.shared k ∧ row.attempts ≤ relayMaxAttempts ∧
      (row ∈ candidates s.shared ↔ row.attempts < relayMaxAttempts)) ∧
    (∀ i k, k ∈ (s.proc i).ids → ∃ row, (s.shared.outbox k).base = some row ∧
      row.publishedAt = none ∧ row.attempts < relayMaxAttempts) ∧
    ∀ i a bs cs u v, as = bs ++ .call i a :: cs → machine.Run Machine.Always s₀ bs u →
      machine.next u (.call i a) = some v → machine.Run Machine.Always v cs s →
      ¬ (s.proc i).Committed → ∀ k, (v.shared.outbox k).base = (u.shared.outbox k).base := by
  have hs := holds hinit hrun
  refine ⟨?_, fun i j k => in_hand_exclusive hs, ?_, ?_, ?_, ?_⟩
  · intro k row hrow hpub
    rcases hs.1.published k row hrow hpub with ⟨i, hi⟩
    exact hi.confirmed hs.1
  · intro hcalm k
    exact (single_of_undisturbed hinit hcalm).takenOnce hs.1 k
  · intro k row hrow hpub
    rcases hs.1.attempts k row hrow hpub with ⟨hcount, hmax⟩
    refine ⟨hcount, hmax, (mem_candidates hs.1 hrow).trans ?_⟩
    exact ⟨fun hp => hp.2, fun hlt => ⟨hpub, hlt⟩⟩
  · intro i k hk
    exact ((hs.2 i).in_hand (Pc.not_rolling hk) hk).2
  · intro i a bs cs u v _ hbs hn hcs hfail
    exact uncommitted_unchanged (holds hinit hbs) hn hcs hfail

/-! ## A crash between publish and COMMIT -/

def emptyOutbox : St where
  shared :=
    { outbox := Table.ofBase fun _ => none
      sends := fun _ => none
      nextSend := 0, now := 100, inserted := [], passes := [] }
  proc _ := .idle

theorem emptyOutbox_init : machine.Init emptyOutbox :=
  ⟨⟨fun _ => rfl, fun _ => rfl, rfl, rfl⟩, fun _ => rfl⟩

def orderPlacedRow : OutboxRow := ⟨7, "order", "1", "order.placed.v1", .null, 90, none, 0, none⟩

/-- Pass 0 crashes after the broker has taken its message; pass 1 sends the row again and
commits. -/
def crashedRelay : List Label :=
  .env (.insert orderPlacedRow) :: .call 0 (.start 50) :: List.replicate 4 (.call 0 .run) ++
  [.env (.accept 0), .call 0 .abort, .call 1 (.start 50)] ++ List.replicate 5 (.call 1 .run) ++
  [.env (.accept 1), .env (.confirm 1)] ++ List.replicate 5 (.call 1 .run)

/-- The run in which pass 0 crashes between publish and COMMIT: row 7 is sent by pass 1 again,
marked as published, and the broker has confirmed it. -/
theorem relay_safety_crashedRelay : ∃ t : St, machine.Run Machine.Always emptyOutbox crashedRelay t ∧
    (∃ row, (t.shared.outbox 7).base = some row ∧ row.publishedAt = some 100) ∧
    Confirmed t.shared 7 := by
  have hrun : ∃ t, machine.exec (fun _ _ => true) emptyOutbox crashedRelay = some t ∧
      ∃ row, (t.shared.outbox 7).base = some row ∧ row.publishedAt = some 100 :=
    ⟨_, rfl, _, rfl, rfl⟩
  rcases hrun with ⟨t, ht, row, hrow, hpub⟩
  have hr := Machine.exec_always ht
  refine ⟨t, hr, ⟨row, hrow, hpub⟩, ?_⟩
  refine (relay_safety emptyOutbox t crashedRelay emptyOutbox_init hr).1 7 row hrow ?_
  rw [hpub]
  exact Option.some_ne_none _

end Marketplace.Outbox.Relay
