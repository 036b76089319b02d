import Marketplace.Outbox.RelayInvariant

/-!
# Outbox.RelayPreservation — every step keeps the invariant

Every statement of a pass, every event of the broker, every new row and every deletion
keeps `Inv`, gives its pass the next local fact, and is something the other passes can put
up with.
-/

namespace Marketplace.Outbox.Relay

open Core

variable {i j : ℕ} {d d' : Db} {pc pc' : Pc} {a : Stmt} {e : Env}

/-! ## The other passes -/

/-- A publish leaves the messages that are there as they are. -/
theorem publish_sends_ne {row : OutboxRow} {n : ℕ} (hn : n ≠ d.nextSend) :
    (d.publish i row).sends n = d.sends n :=
  Function.update_of_ne hn ..

/-- The new message is for its row, by its pass, neither accepted nor heard of yet. -/
theorem publish_sends_self {row : OutboxRow} :
    (d.publish i row).sends d.nextSend = some ⟨i, row, false, none⟩ :=
  Function.update_self ..

/-- Whatever a statement of pass `i` does, the other passes find their locks, their messages and
what they have heard unchanged. -/
theorem Effect.rely (hinv : Inv d) (hne : j ≠ i) (he : Effect i d d' pc') : Rely j d d' := by
  have same : ∀ n s, d.sends n = some s → ∃ s', d.sends n = some s' ∧ s'.pass = s.pass ∧
      s'.row = s.row ∧ ∀ r, s.seen = some r → s'.seen = some r :=
    fun n s hs => ⟨s, hs, rfl, rfl, fun _ hr => hr⟩
  have others : ∀ n s, d.sends n = some s → s.pass = j → d.sends n ≠ none := by
    intro n s hs _ hnone
    rw [hs] at hnone
    cases hnone
  cases he with
  | quiet => exact ⟨Table.Kept.refl j _, same, others, id, fun _ hk => hk⟩
  | write hown => exact ⟨hown.kept j hne, same, others, id, fun _ hk => hk⟩
  | rollback => exact ⟨Table.Kept.rollback hne.symm, same, others, id, fun _ hk => hk⟩
  -- the new message is nobody else's, and its number was free
  | publish =>
      refine ⟨Table.Kept.refl j _, ?_, ?_, id, fun _ hk => hk⟩
      · intro n s hs
        have hn : n ≠ d.nextSend := by
          rintro rfl
          rw [hinv.unsent _ (Nat.le_refl _)] at hs
          cases hs
        exact ⟨s, (publish_sends_ne hn).trans hs, rfl, rfl, fun _ hr => hr⟩
      · intro n s hs hpass
        have hn : n ≠ d.nextSend := by
          rintro rfl
          rw [publish_sends_self] at hs
          cases hs
          exact hne hpass.symm
        rw [publish_sends_ne hn] at hs
        exact others n s hs hpass
  | commit =>
      refine ⟨Table.Kept.commit hne.symm, same, others, ?_, fun _ hk => hk⟩
      intro hp
      rcases List.mem_append.mp hp with hp | hp
      · exact hp
      · exact absurd (List.mem_singleton.mp hp) hne

/-! ## The invariant -/

/-- A change of row versions that nobody has committed. -/
theorem Inv.write {T : Table ℕ EventId OutboxRow} (hinv : Inv d)
    (hbase : ∀ k, (T k).base = (d.outbox k).base)
    (hsame : ∀ k, k ∉ d.inserted → T k = d.outbox k) : Inv { d with outbox := T } where
  unsent := hinv.unsent
  absent k hk := (hsame k hk).trans (hinv.absent k hk)
  distinct := hinv.distinct
  rows k row hr := hinv.rows k row ((hbase k).symm.trans hr)
  sent := hinv.sent
  once := hinv.once
  accepted := hinv.accepted
  refused := hinv.refused
  settled := hinv.settled
  passes := hinv.passes
  published k row hr := hinv.published k row ((hbase k).symm.trans hr)
  attempts k row hr := hinv.attempts k row ((hbase k).symm.trans hr)

/-- Messages come and change, but what the committed passes have heard stays. -/
theorem refusals_sends {k : EventId} (hinv : Inv d)
    (hunsent : ∀ n, d'.nextSend ≤ n → d'.sends n = none) (hpasses : d'.passes = d.passes)
    (hold : ∀ n s, d.sends n = some s → s.pass ∈ d.passes → ∃ s', d'.sends n = some s' ∧
      s'.pass = s.pass ∧ s'.row = s.row ∧ s'.seen = s.seen)
    (hnew : ∀ n s', d'.sends n = some s' → s'.pass ∈ d.passes → ∃ s, d.sends n = some s ∧
      s'.pass = s.pass ∧ s'.row = s.row ∧ s'.seen = s.seen) :
    refusals d' k = refusals d k := by
  refine refusals_congr hpasses ?_
  intro p hp
  rw [Bool.eq_iff_iff, refusedBy_iff hunsent, refusedBy_iff hinv.unsent]
  constructor
  · rintro ⟨r, href, n, s', hs', hpass, hrow, hseen⟩
    rcases hnew n s' hs' (hpass ▸ hp) with ⟨s, hs, hpass', hrow', hseen'⟩
    exact ⟨r, href, n, s, hs, hpass'.symm.trans hpass, by rw [← hrow']; exact hrow,
      hseen'.symm.trans hseen⟩
  · rintro ⟨r, href, n, s, hs, hpass, hrow, hseen⟩
    rcases hold n s hs (hpass ▸ hp) with ⟨s', hs', hpass', hrow', hseen'⟩
    exact ⟨r, href, n, s', hs', hpass'.trans hpass, by rw [hrow']; exact hrow, hseen'.trans hseen⟩

/-- A publish of a row in hand keeps the invariant: the row was inserted, it is the first message
of this pass for it, and the pass has not committed. -/
theorem Inv.publish {row : OutboxRow} (hinv : Inv d) (hrow : row.id ∈ d.inserted)
    (honce : ∀ n s, d.sends n = some s → s.pass = i → s.row.id ≠ row.id)
    (hpass : i ∉ d.passes) : Inv (d.publish i row) := by
  -- the new message, or one that was there
  have cases_send : ∀ n s, (d.publish i row).sends n = some s →
      n = d.nextSend ∧ s = ⟨i, row, false, none⟩ ∨ n ≠ d.nextSend ∧ d.sends n = some s := by
    intro n s hs
    by_cases hn : n = d.nextSend
    · subst hn
      rw [publish_sends_self] at hs
      cases hs
      exact Or.inl ⟨rfl, rfl⟩
    · exact Or.inr ⟨hn, (publish_sends_ne hn).symm.trans hs⟩
  -- nothing that was sent or heard is lost
  have kept : ∀ n s, d.sends n = some s → (d.publish i row).sends n = some s := by
    intro n s hs
    have hn : n ≠ d.nextSend := by
      rintro rfl
      rw [hinv.unsent _ (Nat.le_refl _)] at hs
      cases hs
    exact (publish_sends_ne hn).trans hs
  have heard : ∀ {p k r}, Heard d p k r → Heard (d.publish i row) p k r := by
    rintro p k r ⟨n, s, hs, hrest⟩
    exact ⟨n, s, kept n s hs, hrest⟩
  have hunsent : ∀ n, (d.publish i row).nextSend ≤ n → (d.publish i row).sends n = none := by
    intro n hn
    have hlt : d.nextSend < n := hn
    exact (publish_sends_ne (Nat.ne_of_gt hlt)).trans (hinv.unsent n (Nat.le_of_lt hlt))
  refine
    { unsent := hunsent
      absent := hinv.absent
      distinct := hinv.distinct
      rows := hinv.rows
      sent := ?_
      once := ?_
      accepted := ?_
      refused := ?_
      settled := ?_
      passes := hinv.passes
      published := ?_
      attempts := ?_ }
  · intro n s hs
    rcases cases_send n s hs with ⟨-, rfl⟩ | ⟨-, hs⟩
    · exact hrow
    · exact hinv.sent n s hs
  -- one message per pass and row: the new one is for a row not sent before
  · intro n m s s' hs hs' hp hr
    rcases cases_send n s hs with ⟨rfl, rfl⟩ | ⟨-, hs⟩
    · rcases cases_send m s' hs' with ⟨rfl, -⟩ | ⟨-, hs'⟩
      · rfl
      · exact absurd hr.symm (honce m s' hs' hp.symm)
    · rcases cases_send m s' hs' with ⟨rfl, rfl⟩ | ⟨-, hs'⟩
      · exact absurd hr (honce n s hs hp)
      · exact hinv.once n m s s' hs hs' hp hr
  · intro n s hs hseen
    rcases cases_send n s hs with ⟨-, rfl⟩ | ⟨-, hs⟩
    · cases hseen
    · exact hinv.accepted n s hs hseen
  · intro n s r hs hseen
    rcases cases_send n s hs with ⟨-, rfl⟩ | ⟨-, hs⟩
    · cases hseen
    · exact hinv.refused n s r hs hseen
  · intro n s hs hp
    rcases cases_send n s hs with ⟨-, rfl⟩ | ⟨-, hs⟩
    · exact absurd hp hpass
    · exact hinv.settled n s hs hp
  · intro k r hr hpub
    rcases hinv.published k r hr hpub with ⟨p, hp⟩
    exact ⟨p, heard hp⟩
  -- the refusals that count are those of committed passes
  · intro k r hr hpub
    rw [refusals_sends hinv hunsent rfl (fun n s hs _ => ⟨s, kept n s hs, rfl, rfl, rfl⟩) ?_]
    · exact hinv.attempts k r hr hpub
    · intro n s hs hp
      rcases cases_send n s hs with ⟨-, rfl⟩ | ⟨-, hs⟩
      · exact absurd hp hpass
      · exact ⟨s, hs, rfl, rfl, rfl⟩

/-- The rows after the COMMIT of a pass. -/
theorem commit_rows {at₀ : ℕ} {C : List OutboxRow} {F : List (EventId × String)}
    (hw : Table.Writes i (marksPublished at₀ C ++ marksFailed F) d.outbox)
    (hpending : ∀ k, (d.outbox k).Held i → ∃ row, (d.outbox k).base = some row ∧ Pending row)
    {k : EventId} {row' : OutboxRow} (h : (d.outbox.commit i k).base = some row') :
    (k ∉ C.map OutboxRow.id ∧ k ∉ F.map Prod.fst ∧ (d.outbox k).base = some row') ∨
    (k ∈ C.map OutboxRow.id ∧ ∃ row, (d.outbox k).base = some row ∧
      row' = markPublishedRow at₀ row) ∨
    ∃ message row, (k, message) ∈ F ∧ (d.outbox k).base = some row ∧ Pending row ∧
      row' = markFailedRow message row := by
  by_cases hk : k ∈ (marksPublished at₀ C ++ marksFailed F).map Prod.fst
  · rcases hpending k ((hw.held k).mpr hk) with ⟨row, hrow, hpend⟩
    rcases List.mem_map.mp hk with ⟨p, hp, rfl⟩
    have hbase := hw.commit_written hp
    rw [h, hrow] at hbase
    rcases List.mem_append.mp hp with hp | hp
    · rcases List.mem_map.mp hp with ⟨r, hr, rfl⟩
      exact Or.inr (Or.inl ⟨List.mem_map_of_mem hr, row, hrow, Option.some.inj hbase⟩)
    · rcases List.mem_map.mp hp with ⟨q, hq, rfl⟩
      exact Or.inr (Or.inr ⟨q.2, row, hq, hrow, hpend, Option.some.inj hbase⟩)
  · rw [hw.commit_other hk] at h
    simp only [List.map_append, marksPublished_ids, marksFailed_ids, List.mem_append, not_or] at hk
    exact Or.inl ⟨hk.1, hk.2, h⟩

/-- COMMIT of a pass keeps the invariant: a row that it publishes was confirmed, and `attempts`
goes up by one exactly where it was refused. -/
theorem Inv.commit {at₀ : ℕ} {C : List OutboxRow} {F : List (EventId × String)} (hinv : Inv d)
    (hw : Table.Writes i (marksPublished at₀ C ++ marksFailed F) d.outbox)
    (hpending : ∀ k, (d.outbox k).Held i → ∃ row, (d.outbox k).base = some row ∧ Pending row)
    (ho : Outcomes i d (C.map OutboxRow.id) (F.map Prod.fst)) (hpass : i ∉ d.passes) :
    Inv (d.commit i) := by
  -- the pass joins those that count
  have hcount : ∀ k, refusals (d.commit i) k =
      refusals d k + if refusedBy d i k then 1 else 0 := by
    intro k
    change ((d.passes ++ [i]).filter fun p => refusedBy d p k).length = _
    rw [List.filter_append, List.length_append]
    by_cases hr : refusedBy d i k = true
    · simp [refusals, hr]
    · simp [refusals, hr]
  refine
    { unsent := hinv.unsent
      absent := ?_
      distinct := hinv.distinct
      rows := ?_
      sent := hinv.sent
      once := hinv.once
      accepted := hinv.accepted
      refused := hinv.refused
      settled := ?_
      passes := ?_
      published := ?_
      attempts := ?_ }
  · intro k hk
    change d.outbox.commit i k = _
    rw [Table.commit_apply, hinv.absent k hk]
    rfl
  · intro k row' h
    rcases commit_rows hw hpending h with ⟨-, -, hr⟩ | ⟨-, row, hr, rfl⟩ | ⟨_, row, -, hr, -, rfl⟩
    · exact hinv.rows k row' hr
    · exact hinv.rows k row hr
    · exact hinv.rows k row hr
  -- no message of a committed pass is outstanding
  · intro n s hs hp
    rcases List.mem_append.mp hp with hp | hp
    · exact hinv.settled n s hs hp
    · rcases ho.all n s hs (List.mem_singleton.mp hp) with ⟨hc, -⟩ | ⟨⟨r, hr, -⟩, -⟩
      · rw [hc]
        exact Option.some_ne_none _
      · rw [hr]
        exact Option.some_ne_none _
  · exact List.nodup_append.mpr ⟨hinv.passes, List.nodup_singleton i, by
      rintro p hp q hq rfl
      exact hpass (List.mem_singleton.mp hq ▸ hp)⟩
  · intro k row' h hpub
    rcases commit_rows hw hpending h with ⟨-, -, hr⟩ | ⟨hk, -⟩ | ⟨_, row, -, -, hpend, rfl⟩
    · exact hinv.published k row' hr hpub
    · exact ⟨i, ho.confirmed k hk⟩
    · exact absurd hpend.1 hpub
  · intro k row' h hpub
    rw [hcount k]
    rcases commit_rows hw hpending h with ⟨hC, hF, hr⟩ | ⟨-, row, -, rfl⟩ |
      ⟨message, row, hmem, hr, hpend, rfl⟩
    · -- a row the pass did not publish: nothing was refused
      have hnot : ¬ refusedBy d i k = true := by
        rw [refusedBy_iff hinv.unsent]
        rintro ⟨r, -, n, s, hs, hp, rfl, -⟩
        rcases ho.all n s hs hp with ⟨-, hin⟩ | ⟨-, hin⟩
        · exact hC hin
        · exact hF hin
      rw [if_neg hnot]
      exact hinv.attempts k row' hr hpub
    · cases hpub
    -- a failed row: one refusal more, one attempt more
    · have hyes : refusedBy d i k = true := by
        rw [refusedBy_iff hinv.unsent]
        exact ho.failed k (List.mem_map_of_mem hmem)
      rw [if_pos hyes]
      rcases hinv.attempts k row hr hpend.1 with ⟨heq, -⟩
      refine ⟨congrArg (· + 1) heq, ?_⟩
      exact hpend.2

/-- Every statement of a pass keeps the invariant, by its five effects. -/
theorem stmt_inv (hinv : Inv d) (hl : Loc i d pc) (h : stmt i d pc a = some (d', pc')) :
    Inv d' := by
  have he := stmt_effect hinv hl h
  cases he with
  | quiet => exact hinv
  | write hown hsame => exact hinv.write hown.base hsame
  | rollback =>
      refine hinv.write (Table.Own.rollback i d.outbox).base ?_
      intro k hk
      rw [Table.rollback_apply, hinv.absent k hk]
      rfl
  | publish hrow _ honce hpass => exact hinv.publish hrow honce hpass
  | commit hw ho hpass => exact hinv.commit hw hl.pending ho hpass

/-! ## The next local fact -/

/-- The SELECT finds every row once. -/
theorem candidates_ids (hinv : Inv d) : ((candidates d).map OutboxRow.id).Nodup := by
  have hperm : ((candidates d).map OutboxRow.id).Perm
      ((d.inserted.filterMap fun k => (d.outbox k).base.filter fun row =>
        decide (Pending row)).map OutboxRow.id) :=
    (List.perm_insertionSort older _).map _
  rw [hperm.nodup_iff, List.map_filterMap]
  -- a row is found under its own id
  have hsome : ∀ k k', ((d.outbox k).base.filter fun row => decide (Pending row)).map
      OutboxRow.id = some k' → k' = k := by
    intro k k' h
    rw [Option.map_eq_some_iff] at h
    rcases h with ⟨row, hrow, rfl⟩
    exact hinv.rows k row (Option.filter_eq_some_iff.mp hrow).1
  refine hinv.distinct.filterMap ?_
  intro k k' b hb hb'
  exact (hsome k b hb).symm.trans (hsome k' b hb')

/-- The entries of rows in hand that are not marked yet. -/
theorem mem_locked {rows : List OutboxRow} {p : EventId × (OutboxRow → OutboxRow)} :
    p ∈ locked rows ↔ p.2 = id ∧ p.1 ∈ rows.map OutboxRow.id := by
  unfold locked
  constructor
  · intro hp
    rcases List.mem_map.mp hp with ⟨row, hrow, rfl⟩
    exact ⟨rfl, List.mem_map_of_mem hrow⟩
  · rintro ⟨hid, hk⟩
    rcases List.mem_map.mp hk with ⟨row, hrow, heq⟩
    exact List.mem_map.mpr ⟨row, hrow, Prod.ext heq hid.symm⟩

/-- The same for rows that are in hand by id only. -/
theorem mem_lockedIds {F : List (EventId × String)} {p : EventId × (OutboxRow → OutboxRow)} :
    p ∈ lockedIds F ↔ p.2 = id ∧ p.1 ∈ F.map Prod.fst := by
  unfold lockedIds
  constructor
  · intro hp
    rcases List.mem_map.mp hp with ⟨q, hq, rfl⟩
    exact ⟨rfl, List.mem_map_of_mem hq⟩
  · rintro ⟨hid, hk⟩
    rcases List.mem_map.mp hk with ⟨q, hq, heq⟩
    exact List.mem_map.mpr ⟨q, hq, Prod.ext heq hid.symm⟩

/-- The rows a pass holds and the changes it has made, after its next statement. -/
theorem Runs.writes (hinv : Inv d) (hl : Loc i d pc) (hrun : Runs i d pc d' pc')
    (hroll : ¬ pc'.Rolling) : Table.Writes i pc'.writes d'.outbox ∧ pc'.ids.Nodup := by
  cases hrun with
  | select => exact ⟨hl.writes id, List.nodup_nil⟩
  | skip => exact ⟨hl.writes id, hl.nodup⟩
  -- one more row is locked, unchanged so far
  | @take at₀ n k todo rows row hv =>
      rcases visit_spec hv with ⟨-, hbase, -⟩
      have hid : row.id = k := hinv.rows k row hbase
      have hfresh : k ∉ (locked rows).map Prod.fst := by
        rcases hl.visits at₀ n (k :: todo) rows rfl with ⟨hnodup, -⟩
        rw [List.cons_append, List.nodup_cons] at hnodup
        rw [locked_ids]
        exact fun hin => hnodup.1 (List.mem_append_right _ hin)
      have hwrites : locked (rows ++ [row]) = locked rows ++ [(k, id)] := by
        rw [locked, List.map_append, List.map_singleton, hid]
        rfl
      constructor
      · change Table.Writes i (locked (rows ++ [row])) (d.outbox.put i k (some row))
        rw [hwrites]
        refine (hl.writes id).concat hfresh ?_
        rw [hbase]
        rfl
      · change ((locked (rows ++ [row])).map Prod.fst).Nodup
        rw [hwrites, List.map_append, List.map_singleton]
        exact List.nodup_append.mpr ⟨hl.nodup, List.nodup_singleton k, by
          rintro x hx y hy rfl
          have hxk : x = k := List.mem_singleton.mp hy
          exact hfresh (hxk ▸ hx)⟩
  | @claimed at₀ n todo rows =>
      have hw := hl.writes id
      have hn := hl.nodup
      unfold Relay.claimed
      cases rows with
      | nil => exact ⟨hw, hn⟩
      | cons row rows => exact ⟨hw, hn⟩
  -- the row goes from those to be sent to those that are; it stays in hand
  | @publish at₀ sent row todo =>
      have hlist : (sent ++ [(row, d.nextSend)]).map Prod.fst ++ todo =
          sent.map Prod.fst ++ row :: todo := by simp
      constructor
      · change Table.Writes i (locked ((sent ++ [(row, d.nextSend)]).map Prod.fst ++ todo)) _
        rw [hlist]
        exact hl.writes id
      · change ((locked ((sent ++ [(row, d.nextSend)]).map Prod.fst ++ todo)).map
          Prod.fst).Nodup
        rw [hlist]
        exact hl.nodup
  | @allSent at₀ sent =>
      have hw : Table.Writes i (locked (sent.map Prod.fst ++ [])) d.outbox := hl.writes id
      have hn : ((locked (sent.map Prod.fst ++ [])).map Prod.fst).Nodup := hl.nodup
      rw [List.append_nil] at hw hn
      exact ⟨hw, hn⟩
  | closed => exact absurd trivial hroll
  | @sorted at₀ sent settled C F hset hsort =>
      -- the rows sorted out are the rows sent, in another order
      have hperm : (C.map OutboxRow.id ++ F.map Prod.fst).Perm
          ((sent.map Prod.fst).map OutboxRow.id) := by
        rcases allSettled_spec hset with ⟨hfst, -, -⟩
        rcases sortOut_spec hsort with ⟨hperm, -⟩
        rw [← hfst, List.map_map]
        exact hperm
      constructor
      · refine (hl.writes id).of_mem ?_
        intro p
        change p ∈ locked C ++ lockedIds F ↔ p ∈ locked (sent.map Prod.fst)
        rw [List.mem_append, mem_locked, mem_lockedIds, mem_locked, ← and_or_left,
          ← List.mem_append, hperm.mem_iff]
      · change ((locked C ++ lockedIds F).map Prod.fst).Nodup
        rw [List.map_append, locked_ids, lockedIds_ids, hperm.nodup_iff, ← locked_ids]
        exact hl.nodup
  | hook => exact ⟨hl.writes id, hl.nodup⟩
  | noneConfirmed => exact ⟨hl.writes id, hl.nodup⟩
  -- the confirmed rows are marked, the failed ones still to come
  | @markPublished at₀ C F d' hu =>
      rcases hl.markPublished hu with ⟨-, T, rfl, -, -, hw⟩
      refine ⟨hw, ?_⟩
      have hn := hl.nodup
      simp only [Pc.ids, Pc.writes, List.map_append, locked_ids, lockedIds_ids,
        marksPublished_ids] at hn ⊢
      exact hn
  -- one failed row more is marked
  | @markFailed at₀ C k message marked todo d' hu =>
      rcases hl.markFailed hu with ⟨row, hbase, -, -, rfl⟩
      have hw : Table.Writes i ((marksPublished at₀ C ++ marksFailed marked) ++
          (k, id) :: lockedIds todo) d.outbox := by
        have hw := hl.writes id
        simpa [Pc.writes, lockedIds] using hw
      have hn : (((marksPublished at₀ C ++ marksFailed marked) ++
          (k, id) :: lockedIds todo).map Prod.fst).Nodup := by
        have hn := hl.nodup
        simpa [Pc.ids, Pc.writes, lockedIds] using hn
      have hfresh : k ∉ ((marksPublished at₀ C ++ marksFailed marked) ++
          lockedIds todo).map Prod.fst := by
        rw [List.map_append, List.map_cons] at hn
        rw [List.map_append]
        exact (List.nodup_cons.mp (List.perm_middle.nodup_iff.mp hn)).1
      have hnext : (Pc.markFailed at₀ C (marked ++ [(k, message)]) todo).writes =
          (marksPublished at₀ C ++ marksFailed marked) ++
            (k, markFailedRow message) :: lockedIds todo := by
        simp [Pc.writes, marksFailed]
      constructor
      · rw [hnext]
        refine hw.change hfresh ?_
        rw [hbase]
        rfl
      · unfold Pc.ids
        rw [hnext]
        simpa using hn
  | @marked at₀ C F =>
      have hw : Table.Writes i (marksPublished at₀ C ++ (marksFailed F ++ lockedIds []))
        d.outbox := hl.writes id
      have hn : ((marksPublished at₀ C ++ (marksFailed F ++ lockedIds [])).map Prod.fst).Nodup :=
        hl.nodup
      have hnil : marksFailed F ++ lockedIds [] = marksFailed F := List.append_nil _
      rw [hnil] at hw hn
      exact ⟨hw, hn⟩
  -- at the end of the transaction nothing is in hand
  | commitEmpty => exact ⟨Table.Writes.nil fun _ => Slot.not_held_commit, List.nodup_nil⟩
  | commit => exact ⟨Table.Writes.nil fun _ => Slot.not_held_commit, List.nodup_nil⟩
  | rollback => exact ⟨Table.Writes.nil fun _ => Slot.not_held_rollback, List.nodup_nil⟩

/-- What a pass has sent and heard, after its next statement. -/
theorem Runs.messages (hinv : Inv d) (hl : Loc i d pc) (hrun : Runs i d pc d' pc') :
    Messages i d' pc' := by
  have hm := hl.messages
  cases hrun with
  | claimed =>
      unfold Relay.claimed
      split
      · exact hm
      · constructor
        · intro p hp
          cases hp
        · intro n s hs hpass
          exact absurd hpass (hm n s hs)
  -- the new message is the last of those sent
  | @publish at₀ sent row todo =>
      constructor
      · intro p hp
        rcases List.mem_append.mp hp with hp | hp
        · rcases hm.1 p hp with ⟨s, hs, hpass, hrow⟩
          have hn : p.2 ≠ d.nextSend := by
            intro heq
            rw [heq, hinv.unsent _ (Nat.le_refl _)] at hs
            cases hs
          exact ⟨s, (publish_sends_ne hn).trans hs, hpass, hrow⟩
        · rw [List.mem_singleton.mp hp]
          exact ⟨_, publish_sends_self, rfl, rfl⟩
      -- no message of this pass is left out
      · intro n s hs hpass
        by_cases hn : n = d.nextSend
        · subst hn
          rw [publish_sends_self] at hs
          cases hs
          exact List.mem_append_right _ (List.mem_singleton.mpr rfl)
        · rw [publish_sends_ne hn] at hs
          exact List.mem_append_left _ (hm.2 n s hs hpass)
  | sorted hset hsort => exact outcomes_settled hm hset hsort
  | markPublished hu =>
      rcases hl.markPublished hu with ⟨-, T, rfl, -⟩
      exact ⟨hm.confirmed, hm.failed, hm.all⟩
  -- the row only moves within the list of failed ones
  | @markFailed at₀ C k message marked todo d' hu =>
      rcases hl.markFailed hu with ⟨row, -, -, -, rfl⟩
      have hlist : (marked ++ [(k, message)]) ++ todo = marked ++ (k, message) :: todo := by simp
      change Outcomes i _ _ (((marked ++ [(k, message)]) ++ todo).map Prod.fst)
      rw [hlist]
      exact ⟨hm.confirmed, hm.failed, hm.all⟩
  | @marked at₀ C F =>
      have hm' : Outcomes i d (C.map OutboxRow.id) ((F ++ []).map Prod.fst) := hm
      rwa [List.append_nil] at hm'
  | closed => trivial
  | commitEmpty => trivial
  | commit => trivial
  | rollback => trivial
  | _ => exact hm

/-- What a pass holds is pending: the row it has just locked, and what it held before. -/
theorem Runs.pending (hl : Loc i d pc) (hrun : Runs i d pc d' pc') :
    ∀ k, (d'.outbox k).Held i → ∃ row, (d'.outbox k).base = some row ∧ Pending row := by
  have hp := hl.pending
  -- writing a draft into a row changes no committed version
  have put : ∀ {k₀ : EventId} {row : OutboxRow},
      (∃ row, (d.outbox k₀).base = some row ∧ Pending row) → ∀ k,
      (d.outbox.put i k₀ (some row) k).Held i →
      ∃ row', (d.outbox.put i k₀ (some row) k).base = some row' ∧ Pending row' := by
    intro k₀ row h₀ k hk
    rw [Table.put_base]
    rw [Table.held_put_iff] at hk
    by_cases heq : k = k₀
    · rw [heq]
      exact h₀
    · rw [if_neg heq] at hk
      exact hp k hk
  cases hrun with
  | take hv =>
      rcases visit_spec hv with ⟨-, hbase, hpend⟩
      exact put ⟨_, hbase, hpend⟩
  | @markPublished at₀ C F d' hu =>
      rcases hl.markPublished hu with ⟨-, T, rfl, hown, -, hw⟩
      intro k hk
      change ∃ row, (T k).base = some row ∧ Pending row
      rw [hown.base k]
      apply hp
      rw [(hl.writes id).held k]
      rw [hw.held k] at hk
      simpa [Pc.writes] using hk
  | markFailed hu =>
      rcases hl.markFailed hu with ⟨row, hbase, hpend, -, rfl⟩
      exact put ⟨row, hbase, hpend⟩
  | commitEmpty => exact fun k hk => absurd hk Slot.not_held_commit
  | commit => exact fun k hk => absurd hk Slot.not_held_commit
  | rollback => exact fun k hk => absurd hk Slot.not_held_rollback
  | _ => exact hp

/-- While a pass locks rows the ids still to be visited and those it has are all different. -/
theorem Runs.visits (hinv : Inv d) (hl : Loc i d pc) (hrun : Runs i d pc d' pc') :
    ∀ at₀ n todo rows, pc' = .lock at₀ n todo rows →
      (todo ++ rows.map OutboxRow.id).Nodup ∧ ∀ row ∈ rows, row.id ∈ d'.inserted := by
  intro at₀ n todo rows hpc
  cases hrun with
  | select =>
      cases hpc
      refine ⟨by simpa using candidates_ids hinv, ?_⟩
      intro row hrow
      cases hrow
  | @skip _ _ k =>
      cases hpc
      rcases hl.visits at₀ n (k :: todo) rows rfl with ⟨hnodup, hin⟩
      exact ⟨(List.nodup_cons.mp hnodup).2, hin⟩
  | @take _ _ k _ rows' row hv =>
      cases hpc
      rcases visit_spec hv with ⟨-, hbase, -⟩
      have hid : row.id = k := hinv.rows k row hbase
      rcases hl.visits at₀ n (k :: todo) rows' rfl with ⟨hnodup, hin⟩
      constructor
      -- the row goes from the one list to the other
      · rw [List.map_append, List.map_singleton, hid, ← List.append_assoc]
        exact (List.perm_append_singleton k _).nodup_iff.mpr hnodup
      · intro row' hrow'
        rcases List.mem_append.mp hrow' with hrow' | hrow'
        · exact hin row' hrow'
        · rw [List.mem_singleton.mp hrow', hid]
          exact hinv.base_inserted hbase
  | claimed =>
      unfold Relay.claimed at hpc
      split at hpc <;> cases hpc
  | _ => cases hpc

/-- Only COMMIT puts a pass among those that have committed. -/
theorem Runs.passes (hl : Loc i d pc) (hrun : Runs i d pc d' pc') :
    i ∈ d'.passes → pc'.Committed := by
  cases hrun with
  | commitEmpty => exact fun _ => trivial
  | commit => exact fun _ => trivial
  | markPublished hu =>
      rcases hl.markPublished hu with ⟨-, T, rfl, -⟩
      exact fun hp => absurd hp (hl.not_passed id)
  | markFailed hu =>
      rcases hl.markFailed hu with ⟨row, -, -, -, rfl⟩
      exact fun hp => absurd hp (hl.not_passed id)
  | _ => exact fun hp => absurd hp (hl.not_passed id)

/-- After any statement the local fact holds at the new program point. -/
theorem stmt_loc (hinv : Inv d) (hl : Loc i d pc) (h : stmt i d pc a = some (d', pc')) :
    Loc i d' pc' := by
  rcases stmt_cases h with ⟨-, hrun⟩ | ⟨err, rfl, rfl⟩ | ⟨-, rfl, rfl⟩ | ⟨at₀, n, rfl, rfl, rfl⟩
  · exact
      { writes := fun hroll => (hrun.writes hinv hl hroll).1
        nodup := by
          by_cases hroll : pc'.Rolling
          · cases pc' <;> first | exact hroll.elim | exact List.nodup_nil
          · exact (hrun.writes hinv hl hroll).2
        pending := hrun.pending hl
        messages := hrun.messages hinv hl
        passes := hrun.passes hl
        visits := hrun.visits hinv hl }
  -- a statement fails, and ROLLBACK is next; the locks are still there
  · have hopen : ¬ pc.Committed := by
      intro hc
      cases pc with
      | done result => cases a <;> simp [stmt, Pc.Open] at h
      | _ => exact hc
    exact
      { writes := fun hroll => absurd trivial hroll
        nodup := List.nodup_nil
        pending := hl.pending
        messages := trivial
        passes := fun hp => absurd hp (hl.not_passed hopen)
        visits := fun _ _ _ _ hpc => by cases hpc }
  -- the connection is lost, and the locks with it
  · have hopen : ¬ pc.Committed := by
      intro hc
      cases pc with
      | done result => cases a <;> simp [stmt, Pc.Open] at h
      | _ => exact hc
    exact
      { writes := fun _ => Table.Writes.nil fun _ => Slot.not_held_rollback
        nodup := List.nodup_nil
        pending := fun _ hk => absurd hk Slot.not_held_rollback
        messages := trivial
        passes := fun hp => absurd hp (hl.not_passed hopen)
        visits := fun _ _ _ _ hpc => by cases hpc }
  · exact
      { writes := fun _ => hl.writes id
        nodup := List.nodup_nil
        pending := hl.pending
        messages := hl.messages
        passes := fun hp => absurd hp (hl.not_passed id)
        visits := fun _ _ _ _ hpc => by cases hpc }

/-! ## The broker, new rows, and retention -/

/-- A change of rows that others have not locked, of the inserted ids and of the clock is one that
a pass can live with. -/
theorem Rely.outbox_only {T : Table ℕ EventId OutboxRow} {ids : List EventId} {now : ℕ}
    (hk : Table.Kept j d.outbox T) (hids : ∀ k ∈ d.inserted, k ∈ ids) :
    Rely j d { d with outbox := T, inserted := ids, now := now } where
  outbox := hk
  sends n s hs := ⟨s, hs, rfl, rfl, fun _ hr => hr⟩
  others n s hs _ := by
    rw [show d.sends n = some s from hs]
    exact Option.some_ne_none _
  passes := id
  inserted := hids

/-- Replacing slots that nobody has locked by others that nobody has locked. -/
theorem kept_unlocked {T : Table ℕ EventId OutboxRow}
    (h : ∀ k, T k = d.outbox k ∨ (d.outbox k).lock = none ∧ (T k).lock = none) :
    Table.Kept j d.outbox T := by
  constructor
  · rintro k ⟨v, hv⟩
    rcases h k with heq | ⟨hlock, -⟩
    · exact heq
    · rw [hlock] at hv
      cases hv
  · intro k hk
    rcases h k with heq | ⟨-, hlock⟩
    · rwa [heq]
    · rintro ⟨v, hv⟩
      rw [hlock] at hv
      cases hv

/-- An event of the broker changes one message: what it is stays, and so does what was
heard of it. -/
structure Changes₁ (s s' : Send) : Prop where
  pass : s'.pass = s.pass
  row : s'.row = s.row
  seen : s.seen = none ∨ s'.seen = s.seen
  accepted : s'.seen = some .confirmed → s'.accepted = true
  refused : ∀ r, s'.seen = some r → r.Refused → s'.accepted = false

/-- What the INSERT of an order adds: a row under a new id, unpublished and not tried yet,
committed at once. -/
theorem env_insert {row : OutboxRow} (h : env d (.insert row) = some d') :
    row.id ∉ d.inserted ∧ row.publishedAt = none ∧ row.attempts = 0 ∧
    d' = { d with
      outbox := Function.update d.outbox row.id (Slot.settled (some row))
      inserted := d.inserted ++ [row.id] } := by
  simp only [env] at h
  split at h
  · cases h
  · next hno =>
      simp only [not_or, not_not] at hno
      cases h
      exact ⟨hno.1, hno.2.1, hno.2.2, rfl⟩

/-- What retention deletes: rows that nobody has locked, each of them published long enough ago.
-/
theorem env_purge {cutoff : ℕ} {ids : List EventId} (h : env d (.purge cutoff ids) = some d') :
    (∀ k ∈ ids, (d.outbox k).lock = none ∧
      ∃ row, (d.outbox k).base = some row ∧ Purgeable cutoff row) ∧
    d' = { d with outbox := fun k => if k ∈ ids then Slot.settled none else d.outbox k } := by
  simp only [env] at h
  split at h
  · next hall =>
      cases h
      refine ⟨?_, rfl⟩
      intro k hk
      rcases hall k hk with ⟨hlock, hany⟩
      rw [Option.any_eq_true] at hany
      rcases hany with ⟨row, hrow, hp⟩
      exact ⟨hlock, row, hrow, of_decide_eq_true hp⟩
  · cases h

/-- The events of the broker: a message is accepted, confirmed or rejected. -/
theorem env_message
    (he : (∃ n, e = .accept n) ∨ (∃ n, e = .confirm n) ∨ ∃ n message, e = .reject n message)
    (h : env d e = some d') :
    ∃ n s s', d.sends n = some s ∧ Changes₁ s s' ∧ d' = setSend d n s' := by
  rcases he with ⟨n, rfl⟩ | ⟨n, rfl⟩ | ⟨n, message, rfl⟩
  -- the broker takes it
  · simp only [env, Option.bind_eq_some_iff] at h
    rcases h with ⟨s, hs, h⟩
    split at h
    · cases h
    · next hno =>
        rw [not_or] at hno
        cases h
        refine ⟨n, s, { s with accepted := true }, hs, ⟨rfl, rfl, Or.inr rfl, fun _ => rfl, ?_⟩, rfl⟩
        intro r hr href
        have hseen : s.seen = some r := hr
        refine absurd ?_ hno.2
        rw [hseen]
        exact decide_eq_true href
  -- the relay hears the confirmation
  · simp only [env, Option.bind_eq_some_iff] at h
    rcases h with ⟨s, hs, h⟩
    split at h
    · next hyes =>
        cases h
        refine ⟨n, s, { s with seen := some .confirmed }, hs,
          ⟨rfl, rfl, Or.inl hyes.2, fun _ => hyes.1, ?_⟩, rfl⟩
        intro r hr href
        cases hr
        exact href.elim
    · cases h
  -- the relay hears a rejection, or that the channel is closed
  · simp only [env, Option.bind_eq_some_iff] at h
    rcases h with ⟨s, hs, h⟩
    split at h
    · next hyes =>
        cases h
        refine ⟨n, s, { s with seen := some (.rejected message) }, hs,
          ⟨rfl, rfl, Or.inl hyes.2, ?_, ?_⟩, rfl⟩
        · intro hc
          cases hc
        intro r hr href
        cases hr
        rcases hyes.1 with hclosed | hacc
        · have hopen : isChannelClosed message = false := href
          rw [hopen] at hclosed
          cases hclosed
        · exact Bool.eq_false_of_not_eq_true hacc
    · cases h

/-- What becomes of a message leaves every pass what it relies on, because what has been heard is
not taken back. -/
theorem Rely.setSend {n : ℕ} {s s' : Send} (hs : d.sends n = some s) (hc : Changes₁ s s') :
    Rely j d (setSend d n s') where
  outbox := Table.Kept.refl j _
  sends m x hx := by
    by_cases hm : m = n
    · subst hm
      rw [hs] at hx
      cases hx
      refine ⟨s', Function.update_self .., hc.pass, hc.row, ?_⟩
      intro r hr
      rcases hc.seen with hnone | heq
      · rw [hnone] at hr
        cases hr
      · exact heq.trans hr
    · exact ⟨x, (Function.update_of_ne hm ..).trans hx, rfl, rfl, fun _ hr => hr⟩
  others m x hx _ := by
    by_cases hm : m = n
    · subst hm
      rw [hs]
      exact Option.some_ne_none _
    · rw [← show (Relay.setSend d n s').sends m = d.sends m from Function.update_of_ne hm .., hx]
      exact Option.some_ne_none _
  passes := id
  inserted _ hk := hk

/-- What becomes of a message keeps the invariant: the pass it is of has not committed while it is
outstanding. -/
theorem Inv.setSend {n : ℕ} {s s' : Send} (hinv : Inv d) (hs : d.sends n = some s)
    (hc : Changes₁ s s') : Inv (setSend d n s') := by
  have cases_send : ∀ m x, (Relay.setSend d n s').sends m = some x →
      m = n ∧ x = s' ∨ m ≠ n ∧ d.sends m = some x := by
    intro m x hx
    by_cases hm : m = n
    · subst hm
      rw [show (Relay.setSend d m s').sends m = some s' from Function.update_self ..] at hx
      cases hx
      exact Or.inl ⟨rfl, rfl⟩
    · exact Or.inr ⟨hm, (Function.update_of_ne hm ..).symm.trans hx⟩
  -- every message is the old one but for `accepted` and `seen`
  have before : ∀ m x, (Relay.setSend d n s').sends m = some x →
      ∃ y, d.sends m = some y ∧ x.pass = y.pass ∧ x.row = y.row := by
    intro m x hx
    rcases cases_send m x hx with ⟨rfl, rfl⟩ | ⟨-, hx⟩
    · exact ⟨s, hs, hc.pass, hc.row⟩
    · exact ⟨x, hx, rfl, rfl⟩
  have hrely : ∀ j, Rely j d (Relay.setSend d n s') := fun j => Rely.setSend hs hc
  have hunsent : ∀ m, (Relay.setSend d n s').nextSend ≤ m →
      (Relay.setSend d n s').sends m = none := by
    intro m hm
    have hm' : m ≠ n := by
      rintro rfl
      rw [hinv.unsent m hm] at hs
      cases hs
    exact (Function.update_of_ne hm' ..).trans (hinv.unsent m hm)
  -- of a committed pass everything has been heard already
  have committed : s.pass ∈ d.passes → s'.seen = s.seen := by
    intro hp
    rcases hc.seen with hnone | heq
    · exact absurd hnone (hinv.settled n s hs hp)
    · exact heq
  refine
    { unsent := hunsent
      absent := hinv.absent
      distinct := hinv.distinct
      rows := hinv.rows
      sent := ?_
      once := ?_
      accepted := ?_
      refused := ?_
      settled := ?_
      passes := hinv.passes
      published := ?_
      attempts := ?_ }
  · intro m x hx
    rcases before m x hx with ⟨y, hy, -, hrow⟩
    rw [hrow]
    exact hinv.sent m y hy
  · intro m m' x x' hx hx' hp hr
    rcases before m x hx with ⟨y, hy, hpass, hrow⟩
    rcases before m' x' hx' with ⟨y', hy', hpass', hrow'⟩
    exact hinv.once m m' y y' hy hy' (hpass.symm.trans (hp.trans hpass'))
      (by rw [← hrow, ← hrow']; exact hr)
  · intro m x hx hseen
    rcases cases_send m x hx with ⟨rfl, rfl⟩ | ⟨-, hx⟩
    · exact hc.accepted hseen
    · exact hinv.accepted m x hx hseen
  · intro m x r hx hseen href
    rcases cases_send m x hx with ⟨rfl, rfl⟩ | ⟨-, hx⟩
    · exact hc.refused r hseen href
    · exact hinv.refused m x r hx hseen href
  · intro m x hx hp
    rcases cases_send m x hx with ⟨rfl, rfl⟩ | ⟨-, hx⟩
    · have hp' : s.pass ∈ d.passes := hc.pass ▸ hp
      rw [committed hp']
      exact hinv.settled m s hs hp'
    · exact hinv.settled m x hx hp
  · intro k row hr hpub
    rcases hinv.published k row hr hpub with ⟨p, hp⟩
    exact ⟨p, hp.rely (hrely p)⟩
  -- so no refusal that counts is added
  · intro k row hr hpub
    rw [refusals_sends hinv hunsent rfl ?_ ?_]
    · exact hinv.attempts k row hr hpub
    · intro m x hx hp
      by_cases hm : m = n
      · subst hm
        rw [hs] at hx
        cases hx
        exact ⟨s', Function.update_self .., hc.pass, hc.row, committed hp⟩
      · exact ⟨x, (Function.update_of_ne hm ..).trans hx, rfl, rfl, rfl⟩
    · intro m x hx hp
      rcases cases_send m x hx with ⟨rfl, rfl⟩ | ⟨-, hx⟩
      · exact ⟨s, hs, hc.pass, hc.row, committed (hc.pass ▸ hp)⟩
      · exact ⟨x, hx, rfl, rfl, rfl⟩

/-- A new row keeps the invariant: no message was ever sent for its id, so it starts with no
attempts. -/
theorem Inv.insert {row : OutboxRow} (hinv : Inv d) (hid : row.id ∉ d.inserted)
    (hpub : row.publishedAt = none) (hatt : row.attempts = 0) :
    Inv { d with
      outbox := Function.update d.outbox row.id (Slot.settled (some row))
      inserted := d.inserted ++ [row.id] } := by
  have hzero : refusals d row.id = 0 := by
    unfold refusals
    rw [List.length_eq_zero_iff, List.filter_eq_nil_iff]
    intro p _ href
    rw [refusedBy_iff hinv.unsent] at href
    rcases href with ⟨r, -, n, s, hs, -, heq, -⟩
    exact hid (heq ▸ hinv.sent n s hs)
  -- the new row, or one that was there
  have cases_row : ∀ k r, (Function.update d.outbox row.id (Slot.settled (some row)) k).base =
      some r → k = row.id ∧ r = row ∨ (d.outbox k).base = some r := by
    intro k r hr
    by_cases hk : k = row.id
    · subst hk
      rw [Function.update_self] at hr
      cases hr
      exact Or.inl ⟨rfl, rfl⟩
    · rw [Function.update_of_ne hk] at hr
      exact Or.inr hr
  refine
    { unsent := hinv.unsent
      absent := ?_
      distinct := ?_
      rows := ?_
      sent := fun n s hs => List.mem_append_left _ (hinv.sent n s hs)
      once := hinv.once
      accepted := hinv.accepted
      refused := hinv.refused
      settled := hinv.settled
      passes := hinv.passes
      published := ?_
      attempts := ?_ }
  · intro k hk
    rw [List.mem_append, not_or, List.mem_singleton] at hk
    exact (Function.update_of_ne hk.2 ..).trans (hinv.absent k hk.1)
  · exact List.nodup_append.mpr ⟨hinv.distinct, List.nodup_singleton _, by
      rintro x hx y hy rfl
      have hxk : x = row.id := List.mem_singleton.mp hy
      exact hid (hxk ▸ hx)⟩
  · intro k r hr
    rcases cases_row k r hr with ⟨rfl, rfl⟩ | hr
    · rfl
    · exact hinv.rows k r hr
  · intro k r hr hp
    rcases cases_row k r hr with ⟨rfl, rfl⟩ | hr
    · exact absurd hpub hp
    · exact hinv.published k r hr hp
  · intro k r hr hp
    rcases cases_row k r hr with ⟨rfl, rfl⟩ | hr
    · refine ⟨?_, ?_⟩
      · exact hatt.trans hzero.symm
      · rw [hatt]
        exact Nat.zero_le _
    · exact hinv.attempts k r hr hp

/-- Deleting rows keeps the invariant, which asks nothing of rows that are gone. -/
theorem Inv.purge {ids : List EventId} (hinv : Inv d) :
    Inv { d with outbox := fun k => if k ∈ ids then Slot.settled none else d.outbox k } := by
  have rest : ∀ k r, (if k ∈ ids then (Slot.settled none : Slot ℕ OutboxRow)
      else d.outbox k).base = some r → (d.outbox k).base = some r := by
    intro k r hr
    split at hr
    · cases hr
    · exact hr
  exact
    { unsent := hinv.unsent
      absent := by
        intro k hk
        dsimp only
        split
        · rfl
        · exact hinv.absent k hk
      distinct := hinv.distinct
      rows := fun k r hr => hinv.rows k r (rest k r hr)
      sent := hinv.sent
      once := hinv.once
      accepted := hinv.accepted
      refused := hinv.refused
      settled := hinv.settled
      passes := hinv.passes
      published := fun k r hr => hinv.published k r (rest k r hr)
      attempts := fun k r hr => hinv.attempts k r (rest k r hr) }

/-- What broker, orders and retention do keeps the invariant, and leaves every pass what it relies
on. -/
theorem env_inv (hinv : Inv d) (h : env d e = some d') : Inv d' ∧ ∀ j, Rely j d d' := by
  have message : ((∃ n, e = .accept n) ∨ (∃ n, e = .confirm n) ∨
      ∃ n message, e = .reject n message) → Inv d' ∧ ∀ j, Rely j d d' := by
    intro he
    rcases env_message he h with ⟨n, s, s', hs, hc, rfl⟩
    exact ⟨hinv.setSend hs hc, fun j => Rely.setSend hs hc⟩
  cases e with
  | insert row =>
      rcases env_insert h with ⟨hid, hpub, hatt, rfl⟩
      refine ⟨hinv.insert hid hpub hatt, ?_⟩
      intro j
      refine Rely.outbox_only (kept_unlocked ?_) fun k hk => List.mem_append_left _ hk
      intro k
      by_cases hk : k = row.id
      -- the slot of a new id was empty, and nobody can lock an empty slot
      · subst hk
        rw [Function.update_self, hinv.absent _ hid]
        exact Or.inr ⟨rfl, rfl⟩
      · exact Or.inl (Function.update_of_ne hk ..)
  | accept n => exact message (Or.inl ⟨n, rfl⟩)
  | confirm n => exact message (Or.inr (Or.inl ⟨n, rfl⟩))
  | reject n m => exact message (Or.inr (Or.inr ⟨n, m, rfl⟩))
  | purge cutoff ids =>
      rcases env_purge h with ⟨hall, rfl⟩
      refine ⟨hinv.purge, ?_⟩
      intro j
      refine Rely.outbox_only (kept_unlocked ?_) fun k hk => hk
      intro k
      by_cases hk : k ∈ ids
      · simp only [hk, if_true]
        exact Or.inr ⟨(hall k hk).1, rfl⟩
      · exact Or.inl (if_neg hk)
  | tick dt =>
      cases h
      exact ⟨⟨hinv.unsent, hinv.absent, hinv.distinct, hinv.rows, hinv.sent, hinv.once,
        hinv.accepted, hinv.refused, hinv.settled, hinv.passes, hinv.published, hinv.attempts⟩,
        fun j => Rely.outbox_only (Table.Kept.refl j _) fun k hk => hk⟩

end Marketplace.Outbox.Relay
