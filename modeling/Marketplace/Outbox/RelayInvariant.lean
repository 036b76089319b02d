import Marketplace.Outbox.Relay

/-!
# Outbox.RelayInvariant — what every pass holds and what the table says

`Pc.writes` reads off a program point which rows its pass has locked and how it has changed
them, and `Messages` what it has sent and heard. `Inv` is what the committed table and the
messages say about each other in every reachable state: who published a row had it
confirmed, and `attempts` counts the committed passes whose message was refused.
-/

namespace Marketplace.Outbox.Relay

open Core

variable {i j : ℕ} {d d' : Db} {pc pc' : Pc} {a : Stmt}

/-! ## The pass -/

/-- Changes to rows, by id. -/
abbrev Changes := List (EventId × (OutboxRow → OutboxRow))

/-- Rows that are only locked. -/
def locked (rows : List OutboxRow) : Changes := rows.map fun row => (row.id, id)

def lockedIds (failed : List (EventId × String)) : Changes := failed.map fun p => (p.1, id)

/-- Rows with `published_at` set. -/
def marksPublished (at₀ : ℕ) (rows : List OutboxRow) : Changes :=
  rows.map fun row => (row.id, markPublishedRow at₀)

/-- Rows with one more failed attempt. -/
def marksFailed (failed : List (EventId × String)) : Changes :=
  failed.map fun p => (p.1, markFailedRow p.2)

@[simp] theorem locked_ids (rows : List OutboxRow) :
    (locked rows).map Prod.fst = rows.map OutboxRow.id := by
  simp [locked]

@[simp] theorem lockedIds_ids (failed : List (EventId × String)) :
    (lockedIds failed).map Prod.fst = failed.map Prod.fst := by
  simp [lockedIds]

@[simp] theorem marksPublished_ids (at₀ : ℕ) (rows : List OutboxRow) :
    (marksPublished at₀ rows).map Prod.fst = rows.map OutboxRow.id := by
  simp [marksPublished]

@[simp] theorem marksFailed_ids (failed : List (EventId × String)) :
    (marksFailed failed).map Prod.fst = failed.map Prod.fst := by
  simp [marksFailed]

namespace Pc

/-- A pass that is only going to roll back. -/
def Rolling : Pc → Prop
  | .rollback _ => True
  | _ => False

/-- The rows a pass has locked, with what it has made of them. -/
def writes : Pc → Changes
  | .lock _ _ _ rows => locked rows
  | .publish _ sent todo => locked (sent.map Prod.fst ++ todo)
  | .settle _ sent => locked (sent.map Prod.fst)
  | .afterPublish _ confirmed failed | .markPublished _ confirmed failed =>
      locked confirmed ++ lockedIds failed
  | .markFailed at₀ confirmed marked todo =>
      marksPublished at₀ confirmed ++ (marksFailed marked ++ lockedIds todo)
  | .commit at₀ confirmed failed => marksPublished at₀ confirmed ++ marksFailed failed
  | _ => []

/-- The rows in hand. -/
def ids (pc : Pc) : List EventId := pc.writes.map Prod.fst

/-- The pass has rolled back or crashed. -/
def Failed : Pc → Prop
  | .done (.error _) | .aborted => True
  | _ => False

/-- The pass has committed. -/
def Committed : Pc → Prop
  | .done (.ok _) => True
  | _ => False

end Pc

/-- The message of pass `i` for row `k` has settled as `r`. -/
def Heard (d : Db) (i : ℕ) (k : EventId) (r : Settled) : Prop :=
  ∃ n s, d.sends n = some s ∧ s.pass = i ∧ s.row.id = k ∧ s.seen = some r

/-- Every row of the pass was published once, and this is what came of it. -/
structure Outcomes (i : ℕ) (d : Db) (C F : List EventId) : Prop where
  confirmed : ∀ k ∈ C, Heard d i k .confirmed
  failed : ∀ k ∈ F, ∃ r, r.Refused ∧ Heard d i k r
  all : ∀ n s, d.sends n = some s → s.pass = i →
    s.seen = some .confirmed ∧ s.row.id ∈ C ∨
    (∃ r, s.seen = some r ∧ r.Refused) ∧ s.row.id ∈ F

/-- What a pass has sent. -/
def Messages (i : ℕ) (d : Db) : Pc → Prop
  | .publish _ sent _ | .settle _ sent =>
      (∀ p ∈ sent, ∃ s, d.sends p.2 = some s ∧ s.pass = i ∧ s.row = p.1) ∧
      ∀ n s, d.sends n = some s → s.pass = i → (s.row, n) ∈ sent
  | .afterPublish _ confirmed failed | .markPublished _ confirmed failed
  | .commit _ confirmed failed =>
      Outcomes i d (confirmed.map OutboxRow.id) (failed.map Prod.fst)
  | .markFailed _ confirmed marked todo =>
      Outcomes i d (confirmed.map OutboxRow.id) ((marked ++ todo).map Prod.fst)
  | .idle | .select _ _ | .lock _ _ _ _ | .commitEmpty =>
      ∀ n s, d.sends n = some s → s.pass ≠ i
  | _ => True

/-- The local fact of a pass. -/
structure Loc (i : ℕ) (d : Db) (pc : Pc) : Prop where
  writes : ¬ pc.Rolling → Table.Writes i pc.writes d.outbox
  nodup : pc.ids.Nodup
  /-- What the pass holds is still waiting to be published. -/
  pending : ∀ k, (d.outbox k).Held i → ∃ row, (d.outbox k).base = some row ∧ Pending row
  messages : Messages i d pc
  passes : i ∈ d.passes → pc.Committed
  /-- The rows still to be visited. -/
  visits : ∀ at₀ n todo rows, pc = .lock at₀ n todo rows →
    (todo ++ rows.map OutboxRow.id).Nodup ∧ ∀ row ∈ rows, row.id ∈ d.inserted

/-! ## The table -/

/-- Pass `i` was refused row `k`. -/
def refusedBy (d : Db) (i : ℕ) (k : EventId) : Bool :=
  (List.range d.nextSend).any fun n => (d.sends n).any fun s =>
    decide (s.pass = i) && decide (s.row.id = k) && s.seen.any fun r => decide r.Refused

/-- The number of committed passes in which the broker refused row `k`. -/
def refusals (d : Db) (k : EventId) : ℕ := (d.passes.filter fun i => refusedBy d i k).length

/-- The committed rows and the messages. -/
structure Inv (d : Db) : Prop where
  unsent : ∀ n, d.nextSend ≤ n → d.sends n = none
  absent : ∀ k, k ∉ d.inserted → d.outbox k = Slot.settled none
  distinct : d.inserted.Nodup
  rows : ∀ k row, (d.outbox k).base = some row → row.id = k
  sent : ∀ n s, d.sends n = some s → s.row.id ∈ d.inserted
  once : ∀ n m s s', d.sends n = some s → d.sends m = some s' → s.pass = s'.pass →
    s.row.id = s'.row.id → n = m
  accepted : ∀ n s, d.sends n = some s → s.seen = some .confirmed → s.accepted = true
  refused : ∀ n s r, d.sends n = some s → s.seen = some r → r.Refused → s.accepted = false
  settled : ∀ n s, d.sends n = some s → s.pass ∈ d.passes → s.seen ≠ none
  passes : d.passes.Nodup
  published : ∀ k row, (d.outbox k).base = some row → row.publishedAt ≠ none →
    ∃ i, Heard d i k .confirmed
  attempts : ∀ k row, (d.outbox k).base = some row → row.publishedAt = none →
    row.attempts = refusals d k ∧ row.attempts ≤ relayMaxAttempts

/-- The computed predicate says what it should: the pass has heard a refusal of the row, and no
message beyond `nextSend` is overlooked. -/
theorem refusedBy_iff (hunsent : ∀ n, d.nextSend ≤ n → d.sends n = none) {k : EventId} :
    refusedBy d i k = true ↔ ∃ r, r.Refused ∧ Heard d i k r := by
  unfold refusedBy Heard
  simp only [List.any_eq_true, List.mem_range, Option.any_eq_true, Bool.and_eq_true,
    decide_eq_true_eq]
  constructor
  · rintro ⟨n, -, s, hs, ⟨hpass, hrow⟩, r, hr, href⟩
    exact ⟨r, href, n, s, hs, hpass, hrow, hr⟩
  · rintro ⟨r, href, n, s, hs, hpass, hrow, hr⟩
    have hn : n < d.nextSend := by
      by_contra hle
      rw [hunsent n (Nat.le_of_not_lt hle)] at hs
      cases hs
    exact ⟨n, hn, s, hs, ⟨hpass, hrow⟩, r, hr, href⟩

/-- `attempts` depends on what the committed passes have heard, and on nothing else. -/
theorem refusals_congr {k : EventId} (hpasses : d'.passes = d.passes)
    (h : ∀ i ∈ d.passes, refusedBy d' i k = refusedBy d i k) : refusals d' k = refusals d k := by
  unfold refusals
  rw [hpasses]
  exact congrArg List.length (List.filter_congr h)

/-! ## What the others do -/

/-- What pass `j` has to put up with. -/
structure Rely (j : ℕ) (d d' : Db) : Prop where
  outbox : Table.Kept j d.outbox d'.outbox
  /-- A message stays what it is, and so does what was heard of it. -/
  sends : ∀ n s, d.sends n = some s → ∃ s', d'.sends n = some s' ∧ s'.pass = s.pass ∧
    s'.row = s.row ∧ ∀ r, s.seen = some r → s'.seen = some r
  others : ∀ n s, d'.sends n = some s → s.pass = j → d.sends n ≠ none
  passes : j ∈ d'.passes → j ∈ d.passes
  inserted : ∀ k ∈ d.inserted, k ∈ d'.inserted

/-- What a pass has heard of its message stays, whatever the others do. -/
theorem Heard.rely (h : Rely j d d') {k : EventId} {r : Settled} (hr : Heard d i k r) :
    Heard d' i k r := by
  rcases hr with ⟨n, s, hs, hpass, hrow, hseen⟩
  rcases h.sends n s hs with ⟨s', hs', hpass', hrow', hseen'⟩
  exact ⟨n, s', hs', hpass'.trans hpass, by rw [hrow']; exact hrow, hseen' r hseen⟩

/-- A message of pass `j` was there before. -/
theorem Rely.before (h : Rely j d d') {n : ℕ} {s' : Send} (hs' : d'.sends n = some s')
    (hpass : s'.pass = j) : ∃ s, d.sends n = some s ∧ s.pass = j ∧ s'.row = s.row ∧
      ∀ r, s.seen = some r → s'.seen = some r := by
  rcases Option.ne_none_iff_exists'.mp (h.others n s' hs' hpass) with ⟨s, hs⟩
  rcases h.sends n s hs with ⟨s'', hs'', hpass', hrow, hseen⟩
  rw [hs'] at hs''
  cases hs''
  exact ⟨s, hs, hpass'.symm.trans hpass, hrow, hseen⟩

/-- So do the outcomes of all its messages, and none is added by the others. -/
theorem Outcomes.rely (h : Rely i d d') {C F : List EventId} (ho : Outcomes i d C F) :
    Outcomes i d' C F where
  confirmed k hk := (ho.confirmed k hk).rely h
  failed k hk := by
    rcases ho.failed k hk with ⟨r, href, hr⟩
    exact ⟨r, href, hr.rely h⟩
  all := by
    intro n s' hs' hpass
    rcases h.before hs' hpass with ⟨s, hs, hpass', hrow, hseen⟩
    rw [hrow]
    rcases ho.all n s hs hpass' with ⟨hc, hk⟩ | ⟨⟨r, hr, href⟩, hk⟩
    · exact Or.inl ⟨hseen _ hc, hk⟩
    · exact Or.inr ⟨⟨r, hseen r hr, href⟩, hk⟩

/-- What a pass knows of its messages survives the steps of the others at every program point. -/
theorem Messages.rely (h : Rely i d d') (hm : Messages i d pc) : Messages i d' pc := by
  -- before the first publish: nobody else sends for this pass
  have hnone : (∀ n s, d.sends n = some s → s.pass ≠ i) →
      ∀ n s, d'.sends n = some s → s.pass ≠ i := by
    intro hno n s' hs' hpass
    rcases h.before hs' hpass with ⟨s, hs, hpass', -⟩
    exact hno n s hs hpass'
  -- while it publishes and waits: the messages sent so far, and no more
  have hsent : ∀ {sent : List (OutboxRow × ℕ)},
      ((∀ p ∈ sent, ∃ s, d.sends p.2 = some s ∧ s.pass = i ∧ s.row = p.1) ∧
        ∀ n s, d.sends n = some s → s.pass = i → (s.row, n) ∈ sent) →
      (∀ p ∈ sent, ∃ s, d'.sends p.2 = some s ∧ s.pass = i ∧ s.row = p.1) ∧
        ∀ n s, d'.sends n = some s → s.pass = i → (s.row, n) ∈ sent := by
    rintro sent ⟨hin, hall⟩
    constructor
    · intro p hp
      rcases hin p hp with ⟨s, hs, hpass, hrow⟩
      rcases h.sends p.2 s hs with ⟨s', hs', hpass', hrow', -⟩
      exact ⟨s', hs', hpass'.trans hpass, hrow'.trans hrow⟩
    · intro n s' hs' hpass
      rcases h.before hs' hpass with ⟨s, hs, hpass', hrow, -⟩
      rw [hrow]
      exact hall n s hs hpass'
  cases pc with
  | publish at₀ sent todo => exact hsent hm
  | settle at₀ sent => exact hsent hm
  -- from here on the outcomes are known
  | afterPublish at₀ confirmed failed => exact Outcomes.rely h hm
  | markPublished at₀ confirmed failed => exact Outcomes.rely h hm
  | markFailed at₀ confirmed marked todo => exact Outcomes.rely h hm
  | commit at₀ confirmed failed => exact Outcomes.rely h hm
  | rollback err => trivial
  | done result => trivial
  | aborted => trivial
  | _ => exact hnone hm

/-- The local fact of a pass survives the steps of the others, who leave its locks, its messages
and the inserted rows alone. -/
theorem Loc.rely (h : Rely i d d') (hl : Loc i d pc) : Loc i d' pc where
  writes hr := (hl.writes hr).kept h.outbox
  nodup := hl.nodup
  pending k hk := by
    have hheld : (d.outbox k).Held i := h.outbox.held_iff.mp hk
    rw [h.outbox.held k hheld]
    exact hl.pending k hheld
  messages := hl.messages.rely h
  passes hp := hl.passes (h.passes hp)
  visits at₀ n todo rows hpc := by
    rcases hl.visits at₀ n todo rows hpc with ⟨hnodup, hin⟩
    exact ⟨hnodup, fun row hrow => h.inserted _ (hin row hrow)⟩

/-! ## One statement -/

/-- What a statement does to the tables and the messages. -/
inductive Effect (i : ℕ) (d : Db) : Db → Pc → Prop
  | quiet {pc' : Pc} : Effect i d d pc'
  | write {T : Table ℕ EventId OutboxRow} {pc' : Pc} : Table.Own i d.outbox T →
      (∀ k, k ∉ d.inserted → T k = d.outbox k) → (∀ k, (d.outbox k).Held i → (T k).Held i) →
      Effect i d { d with outbox := T } pc'
  | rollback {pc' : Pc} : pc'.Failed → Effect i d (d.rollback i) pc'
  | publish {row : OutboxRow} {pc' : Pc} : row.id ∈ d.inserted → (d.outbox row.id).Held i →
      (∀ n s, d.sends n = some s → s.pass = i → s.row.id ≠ row.id) → i ∉ d.passes →
      Effect i d (d.publish i row) pc'
  | commit {at₀ : ℕ} {C : List OutboxRow} {F : List (EventId × String)} {result : RelayResult} :
      Table.Writes i (marksPublished at₀ C ++ marksFailed F) d.outbox →
      Outcomes i d (C.map OutboxRow.id) (F.map Prod.fst) → i ∉ d.passes →
      Effect i d (d.commit i) (.done (.ok result))

/-- A slot that is not empty belongs to a row that was inserted. -/
theorem Inv.mem_inserted (hinv : Inv d) {k : EventId} (h : d.outbox k ≠ Slot.settled none) :
    k ∈ d.inserted := by
  by_contra hk
  exact h (hinv.absent k hk)

/-- In particular a committed row was inserted. -/
theorem Inv.base_inserted (hinv : Inv d) {k : EventId} {row : OutboxRow}
    (h : (d.outbox k).base = some row) : k ∈ d.inserted := by
  apply hinv.mem_inserted
  intro heq
  rw [heq] at h
  cases h

/-- A put on a row that is there. -/
theorem Effect.put (hinv : Inv d) {k : EventId} {row row' : OutboxRow}
    (hbase : (d.outbox k).base = some row) (hfree : (d.outbox k).Free i) :
    Effect i d { d with outbox := d.outbox.put i k (some row') } pc' := by
  refine .write (Table.Own.put hfree) ?_ ?_
  · intro k' hk'
    apply Table.put_ne
    rintro rfl
    exact hk' (hinv.base_inserted hbase)
  · intro k' hk'
    rw [Table.held_put_iff]
    split
    · rfl
    · exact hk'

/-- The UPDATE of a row in hand. -/
theorem update_written {k : EventId} {f : OutboxRow → OutboxRow} {row : OutboxRow}
    {A B : Changes} (hw : Table.Writes i (A ++ (k, id) :: B) d.outbox)
    (hbase : (d.outbox k).base = some row) (h : update i d k f = some d') :
    (d.outbox k).Held i ∧ d' = { d with outbox := d.outbox.put i k (some (f row)) } := by
  have hheld : (d.outbox k).Held i := (hw.held k).mpr (by simp)
  have hview : (d.outbox k).view i = some row := by
    rw [hw.view (k, id) (by simp), hbase]
    rfl
  refine ⟨hheld, ?_⟩
  unfold update at h
  rw [Option.map_eq_some_iff] at h
  rcases h with ⟨⟨T, r⟩, hu, rfl⟩
  rcases Table.updateWhere_cases hu with ⟨-, -, hno⟩ | ⟨row', hview', -, -, -, rfl⟩
  · cases hno row hview
  · rw [hview] at hview'
    cases hview'
    rfl

/-- The UPDATE of all confirmed rows. `A` has the rows that are marked already. -/
theorem updateAll_written {at₀ : ℕ} {rows : List OutboxRow} {B : Changes} (A : Changes)
    (hw : Table.Writes i (A ++ (locked rows ++ B)) d.outbox)
    (hnodup : ((A ++ (locked rows ++ B)).map Prod.fst).Nodup)
    (hbase : ∀ row ∈ rows, ∃ r, (d.outbox row.id).base = some r)
    (h : updateAll i at₀ d rows = some d') :
    ∃ T, d' = { d with outbox := T } ∧ Table.Own i d.outbox T ∧
      (∀ k, k ∉ rows.map OutboxRow.id → T k = d.outbox k) ∧
      Table.Writes i (A ++ (marksPublished at₀ rows ++ B)) T := by
  induction rows generalizing A d with
  | nil =>
      have heq : d = d' := by simpa [updateAll] using h
      exact ⟨d.outbox, heq ▸ rfl, Table.Own.refl i d.outbox, fun _ _ => rfl, hw⟩
  | cons row rows ih =>
      rw [updateAll, Option.bind_eq_some_iff] at h
      rcases h with ⟨d₁, hu, h⟩
      rcases hbase row List.mem_cons_self with ⟨r, hr⟩
      have hw₀ : Table.Writes i (A ++ (row.id, id) :: (locked rows ++ B)) d.outbox := hw
      have hn₀ : ((A ++ (row.id, id) :: (locked rows ++ B)).map Prod.fst).Nodup := hnodup
      rcases update_written hw₀ hr hu with ⟨hheld, rfl⟩
      -- the ids are distinct, so the UPDATE of this row concerns no other entry
      have hk : row.id ∉ (A ++ (locked rows ++ B)).map Prod.fst := by
        rw [List.map_append, List.map_cons] at hn₀
        rw [List.map_append]
        exact (List.nodup_cons.mp (List.perm_middle.nodup_iff.mp hn₀)).1
      have hw₁ := hw₀.change hk (show some (markPublishedRow at₀ r) =
        (d.outbox row.id).base.map (markPublishedRow at₀) by rw [hr]; rfl)
      -- the row moves from those to be marked to those that are
      have hcons : A ++ (row.id, markPublishedRow at₀) :: (locked rows ++ B) =
          (A ++ [(row.id, markPublishedRow at₀)]) ++ (locked rows ++ B) := by simp
      rw [hcons] at hw₁
      have hown : Table.Own i d.outbox (d.outbox.put i row.id (some (markPublishedRow at₀ r))) :=
        Table.Own.put hheld.free
      have hn₁ : (((A ++ [(row.id, markPublishedRow at₀)]) ++ (locked rows ++ B)).map
          Prod.fst).Nodup := by
        rw [← hcons]
        simpa using hn₀
      have hbase₁ : ∀ row' ∈ rows, ∃ r', (d.outbox.put i row.id
          (some (markPublishedRow at₀ r)) row'.id).base = some r' := by
        intro row' hrow'
        rw [Table.put_base]
        exact hbase row' (List.mem_cons_of_mem _ hrow')
      rcases ih (A ++ [(row.id, markPublishedRow at₀)]) hw₁ hn₁ hbase₁ h with
        ⟨T, rfl, hownT, hother, hwT⟩
      refine ⟨T, rfl, hown.trans hownT, ?_, ?_⟩
      · intro k hk'
        rw [List.map_cons, List.mem_cons, not_or] at hk'
        exact (hother k hk'.2).trans (Table.put_ne hk'.1)
      · rw [List.append_assoc] at hwT
        exact hwT

/-! ## What the pass hears -/

/-- `Promise.allSettled`, once it returns: one result for each message in the order of sending,
and each is what was heard of that message. -/
theorem allSettled_spec {sent : List (OutboxRow × ℕ)} {settled : List (OutboxRow × Settled)}
    (h : allSettled d sent = some settled) :
    settled.map Prod.fst = sent.map Prod.fst ∧
    (∀ p ∈ settled, ∃ n s, (p.1, n) ∈ sent ∧ d.sends n = some s ∧ s.seen = some p.2) ∧
    ∀ p ∈ sent, ∃ s r, d.sends p.2 = some s ∧ s.seen = some r ∧ (p.1, r) ∈ settled := by
  induction sent generalizing settled with
  | nil =>
      have heq : settled = [] := by simpa [allSettled] using h.symm
      subst heq
      refine ⟨rfl, ?_, ?_⟩
      · intro p hp
        cases hp
      · intro p hp
        cases hp
  | cons p sent ih =>
      -- the first message has settled, and so have the others
      have hcons : ∃ r rest, (d.sends p.2).bind Send.seen = some r ∧
          allSettled d sent = some rest ∧ settled = (p.1, r) :: rest := by
        simp only [allSettled, List.mapM_cons, Option.bind_eq_bind, Option.bind_eq_some_iff,
          Option.map_eq_some_iff, Option.pure_def] at h
        rcases h with ⟨q, ⟨r, hr, rfl⟩, rest, hrest, heq⟩
        cases heq
        refine ⟨r, rest, ?_, hrest, rfl⟩
        rw [Option.bind_eq_some_iff]
        exact hr
      rcases hcons with ⟨r, rest, hr, hrest, rfl⟩
      rcases ih hrest with ⟨hfst, hin, hall⟩
      rcases Option.bind_eq_some_iff.mp hr with ⟨s, hs, hseen⟩
      refine ⟨by rw [List.map_cons, List.map_cons, hfst], ?_, ?_⟩
      · intro q hq
        rcases List.mem_cons.mp hq with rfl | hq
        · exact ⟨p.2, s, List.mem_cons_self, hs, hseen⟩
        · rcases hin q hq with ⟨n, s', hn, hrest'⟩
          exact ⟨n, s', List.mem_cons_of_mem _ hn, hrest'⟩
      · intro q hq
        rcases List.mem_cons.mp hq with rfl | hq
        · exact ⟨s, r, hs, hseen, List.mem_cons_self⟩
        · rcases hall q hq with ⟨s', r', hs', hseen', hmem⟩
          exact ⟨s', r', hs', hseen', List.mem_cons_of_mem _ hmem⟩

/-- Without a closed channel every row is confirmed or failed, and keeps its place in one of
the two lists. -/
theorem sortOut_spec {settled : List (OutboxRow × Settled)} {C : List OutboxRow}
    {F : List (EventId × String)} (h : sortOut settled = .ok (C, F)) :
    (C.map OutboxRow.id ++ F.map Prod.fst).Perm (settled.map fun p => p.1.id) ∧
    (∀ row ∈ C, (row, Settled.confirmed) ∈ settled) ∧
    (∀ p ∈ F, ∃ row, row.id = p.1 ∧ (row, Settled.rejected p.2) ∈ settled ∧
      Settled.Refused (.rejected p.2)) ∧
    ∀ p ∈ settled, p.2 = .confirmed ∧ p.1 ∈ C ∨ p.2.Refused ∧ p.1.id ∈ F.map Prod.fst := by
  induction settled generalizing C F with
  | nil =>
      cases h
      refine ⟨List.Perm.refl _, ?_, ?_, ?_⟩
      · intro row hrow
        cases hrow
      · intro p hp
        cases hp
      · intro p hp
        cases hp
  | cons p rest ih =>
      rcases p with ⟨row, r⟩
      cases r with
      -- a confirmed row goes to the first list
      | confirmed =>
          rw [sortOut] at h
          cases hr : sortOut rest with
          | error message => rw [hr] at h; cases h
          | ok x =>
              rcases x with ⟨C', F'⟩
              rw [hr] at h
              cases h
              rcases ih hr with ⟨hperm, hC, hF, hall⟩
              refine ⟨List.Perm.cons _ hperm, ?_, ?_, ?_⟩
              · intro row' hrow'
                rcases List.mem_cons.mp hrow' with rfl | hrow'
                · exact List.mem_cons_self
                · exact List.mem_cons_of_mem _ (hC row' hrow')
              · intro q hq
                rcases hF q hq with ⟨row', hid, hmem, href⟩
                exact ⟨row', hid, List.mem_cons_of_mem _ hmem, href⟩
              · intro q hq
                rcases List.mem_cons.mp hq with rfl | hq
                · exact Or.inl ⟨rfl, List.mem_cons_self⟩
                · rcases hall q hq with ⟨hc, hmem⟩ | hfail
                  · exact Or.inl ⟨hc, List.mem_cons_of_mem _ hmem⟩
                  · exact Or.inr hfail
      | rejected message =>
          rw [sortOut] at h
          split at h
          · cases h
          · next hclosed =>
              -- a rejection that is not that of a closed channel is a refusal, and the row goes
              -- to the second list
              have href : Settled.Refused (.rejected message) := Bool.eq_false_of_not_eq_true hclosed
              cases hr : sortOut rest with
              | error message => rw [hr] at h; cases h
              | ok x =>
                  rcases x with ⟨C', F'⟩
                  rw [hr] at h
                  cases h
                  rcases ih hr with ⟨hperm, hC, hF, hall⟩
                  refine ⟨List.perm_middle.trans (List.Perm.cons _ hperm), ?_, ?_, ?_⟩
                  · intro row' hrow'
                    exact List.mem_cons_of_mem _ (hC row' hrow')
                  · intro q hq
                    rcases List.mem_cons.mp hq with rfl | hq
                    · exact ⟨row, rfl, List.mem_cons_self, href⟩
                    · rcases hF q hq with ⟨row', hid, hmem, href'⟩
                      exact ⟨row', hid, List.mem_cons_of_mem _ hmem, href'⟩
                  · intro q hq
                    rcases List.mem_cons.mp hq with rfl | hq
                    · exact Or.inr ⟨href, List.mem_cons_self⟩
                    · rcases hall q hq with hc | ⟨hfail, hmem⟩
                      · exact Or.inl hc
                      · exact Or.inr ⟨hfail, List.mem_cons_of_mem _ hmem⟩

/-- What the settled promises say, once no channel was closed. -/
theorem outcomes_settled {sent : List (OutboxRow × ℕ)} {settled : List (OutboxRow × Settled)}
    {C : List OutboxRow} {F : List (EventId × String)}
    (hm : (∀ p ∈ sent, ∃ s, d.sends p.2 = some s ∧ s.pass = i ∧ s.row = p.1) ∧
      ∀ n s, d.sends n = some s → s.pass = i → (s.row, n) ∈ sent)
    (hset : allSettled d sent = some settled) (hsort : sortOut settled = .ok (C, F)) :
    Outcomes i d (C.map OutboxRow.id) (F.map Prod.fst) := by
  rcases allSettled_spec hset with ⟨-, hin, hall⟩
  rcases sortOut_spec hsort with ⟨-, hC, hF, hcases⟩
  -- each result belongs to a message of this pass, for the row it stands with
  have heard : ∀ row r, (row, r) ∈ settled → Heard d i row.id r := by
    intro row r hmem
    rcases hin (row, r) hmem with ⟨n, s, hn, hs, hseen⟩
    rcases hm.1 (row, n) hn with ⟨s', hs', hpass, hrow⟩
    rw [hs] at hs'
    cases hs'
    exact ⟨n, s, hs, hpass, congrArg OutboxRow.id hrow, hseen⟩
  refine ⟨?_, ?_, ?_⟩
  · intro k hk
    rcases List.mem_map.mp hk with ⟨row, hrow, rfl⟩
    exact heard row _ (hC row hrow)
  · intro k hk
    rcases List.mem_map.mp hk with ⟨p, hp, rfl⟩
    rcases hF p hp with ⟨row, hid, hmem, href⟩
    exact ⟨_, href, hid ▸ heard row _ hmem⟩
  · intro n s hs hpass
    rcases hall (s.row, n) (hm.2 n s hs hpass) with ⟨s', r, hs', hseen, hmem⟩
    have heq : s = s' := Option.some.inj (hs.symm.trans hs')
    subst heq
    rcases hcases (s.row, r) hmem with ⟨hc, hrow⟩ | ⟨href, hrow⟩
    · have hr : r = .confirmed := hc
      subst hr
      exact Or.inl ⟨hseen, List.mem_map_of_mem hrow⟩
    · exact Or.inr ⟨⟨r, hseen, href⟩, hrow⟩

/-! ## The statements, one by one -/

/-- What the next statement of a pass does. -/
inductive Runs (i : ℕ) (d : Db) : Pc → Db → Pc → Prop
  | select {at₀ n : ℕ} :
      Runs i d (.select at₀ n) d (.lock at₀ n ((candidates d).map OutboxRow.id) [])
  | skip {at₀ n : ℕ} {k : EventId} {todo : List EventId} {rows : List OutboxRow} :
      Runs i d (.lock at₀ n (k :: todo) rows) d (.lock at₀ n todo rows)
  | take {at₀ n : ℕ} {k : EventId} {todo : List EventId} {rows : List OutboxRow}
      {row : OutboxRow} : visit i d k = some row →
      Runs i d (.lock at₀ n (k :: todo) rows) { d with outbox := d.outbox.put i k (some row) }
        (.lock at₀ n todo (rows ++ [row]))
  | claimed {at₀ n : ℕ} {todo : List EventId} {rows : List OutboxRow} :
      Runs i d (.lock at₀ n todo rows) d (claimed at₀ rows)
  | commitEmpty : Runs i d .commitEmpty (d.commit i) (.done (.ok ⟨0, 0⟩))
  | publish {at₀ : ℕ} {sent : List (OutboxRow × ℕ)} {row : OutboxRow} {todo : List OutboxRow} :
      Runs i d (.publish at₀ sent (row :: todo)) (d.publish i row)
        (.publish at₀ (sent ++ [(row, d.nextSend)]) todo)
  | allSent {at₀ : ℕ} {sent : List (OutboxRow × ℕ)} :
      Runs i d (.publish at₀ sent []) d (.settle at₀ sent)
  | closed {at₀ : ℕ} {sent : List (OutboxRow × ℕ)} {err : Thrown} :
      Runs i d (.settle at₀ sent) d (.rollback err)
  | sorted {at₀ : ℕ} {sent : List (OutboxRow × ℕ)} {settled : List (OutboxRow × Settled)}
      {C : List OutboxRow} {F : List (EventId × String)} : allSettled d sent = some settled →
      sortOut settled = .ok (C, F) → Runs i d (.settle at₀ sent) d (.afterPublish at₀ C F)
  | hook {at₀ : ℕ} {C : List OutboxRow} {F : List (EventId × String)} :
      Runs i d (.afterPublish at₀ C F) d (.markPublished at₀ C F)
  | noneConfirmed {at₀ : ℕ} {F : List (EventId × String)} :
      Runs i d (.afterPublish at₀ [] F) d (.markFailed at₀ [] [] F)
  | markPublished {at₀ : ℕ} {C : List OutboxRow} {F : List (EventId × String)} {d' : Db} :
      updateAll i at₀ d C = some d' →
      Runs i d (.markPublished at₀ C F) d' (.markFailed at₀ C [] F)
  | markFailed {at₀ : ℕ} {C : List OutboxRow} {k : EventId} {message : String}
      {marked todo : List (EventId × String)} {d' : Db} :
      update i d k (markFailedRow message) = some d' →
      Runs i d (.markFailed at₀ C marked ((k, message) :: todo)) d'
        (.markFailed at₀ C (marked ++ [(k, message)]) todo)
  | marked {at₀ : ℕ} {C : List OutboxRow} {F : List (EventId × String)} :
      Runs i d (.markFailed at₀ C F []) d (.commit at₀ C F)
  | commit {at₀ : ℕ} {C : List OutboxRow} {F : List (EventId × String)} :
      Runs i d (.commit at₀ C F) (d.commit i) (.done (.ok ⟨C.length, F.length⟩))
  | rollback {err : Thrown} :
      Runs i d (.rollback err) (d.rollback i) (.done (.error err))

/-- The next statement of a pass is one of the constructors of `Runs`; this is where `stmt` is
taken apart. -/
theorem stmt_runs (h : stmt i d pc .run = some (d', pc')) : Runs i d pc d' pc' := by
  cases pc with
  | idle => simp [stmt] at h
  | select at₀ n => cases h; exact .select
  | lock at₀ n todo rows =>
      cases todo with
      | nil => cases h; exact .claimed
      | cons k todo =>
          simp only [stmt] at h
          split at h
          · split at h
            · cases h
              exact .skip
            · next row hv =>
                cases h
                exact .take hv
          -- the batch is full, or there is no candidate left
          · cases h
            exact .claimed
  | commitEmpty => cases h; exact .commitEmpty
  | publish at₀ sent todo =>
      cases todo with
      | nil => cases h; exact .allSent
      | cons row todo => cases h; exact .publish
  | settle at₀ sent =>
      simp only [stmt, Option.map_eq_some_iff] at h
      rcases h with ⟨settled, hset, h⟩
      -- a closed channel ends the pass, otherwise the rows are sorted out
      cases hsort : sortOut settled with
      | error message =>
          rw [hsort] at h
          cases h
          exact .closed
      | ok x =>
          rcases x with ⟨C, F⟩
          rw [hsort] at h
          cases h
          exact .sorted hset hsort
  | afterPublish at₀ C F =>
      cases C with
      | nil => cases h; exact .noneConfirmed
      | cons row C => cases h; exact .hook
  | markPublished at₀ C F =>
      simp only [stmt, Option.map_eq_some_iff] at h
      rcases h with ⟨d₁, hu, h⟩
      cases h
      exact .markPublished hu
  | markFailed at₀ C marked todo =>
      cases todo with
      | nil => cases h; exact .marked
      | cons p todo =>
          rcases p with ⟨k, message⟩
          simp only [stmt, Option.map_eq_some_iff] at h
          rcases h with ⟨d₁, hu, h⟩
          cases h
          exact .markFailed hu
  | commit at₀ C F => cases h; exact .commit
  | rollback err => cases h; exact .rollback
  | done result => simp [stmt] at h
  | aborted => simp [stmt] at h

/-- A statement is the next one of the pass, its failure, a crash, or the beginning. -/
theorem stmt_cases (h : stmt i d pc a = some (d', pc')) :
    (a = .run ∧ Runs i d pc d' pc') ∨ (∃ err, d' = d ∧ pc' = .rollback err) ∨
    (a = .abort ∧ d' = d.rollback i ∧ pc' = .aborted) ∨
    ∃ at₀ n, pc = .idle ∧ d' = d ∧ pc' = .select at₀ n := by
  cases a with
  | run => exact Or.inl ⟨rfl, stmt_runs h⟩
  | fail message =>
      right
      left
      cases pc <;> simp [stmt, Pc.Open] at h <;> exact ⟨_, h.1.symm, h.2.symm⟩
  | abort =>
      right
      right
      left
      cases pc <;> simp [stmt, Pc.Open] at h <;> exact ⟨rfl, h.1.symm, h.2.symm⟩
  | start n =>
      right
      right
      right
      cases pc <;> simp [stmt] at h
      exact ⟨_, _, rfl, h.1.symm, h.2.symm⟩

/-- A visited row is pending and nobody else has it. -/
theorem visit_spec {k : EventId} {row : OutboxRow} (h : visit i d k = some row) :
    (d.outbox k).Free i ∧ (d.outbox k).base = some row ∧ Pending row := by
  unfold visit at h
  split at h
  · next hfree =>
      rw [Option.filter_eq_some_iff, decide_eq_true_eq] at h
      exact ⟨hfree, h⟩
  · cases h

/-- A row in hand is held, so it is there and pending. -/
theorem Loc.in_hand (hl : Loc i d pc) (hroll : ¬ pc.Rolling) {k : EventId} (hk : k ∈ pc.ids) :
    (d.outbox k).Held i ∧ ∃ row, (d.outbox k).base = some row ∧ Pending row := by
  have hheld : (d.outbox k).Held i := ((hl.writes hroll).held k).mpr hk
  exact ⟨hheld, hl.pending k hheld⟩

/-- A pass that has not committed is not among those that have. -/
theorem Loc.not_passed (hl : Loc i d pc) (h : ¬ pc.Committed) : i ∉ d.passes :=
  fun hp => h (hl.passes hp)

/-- The UPDATE of the confirmed rows. -/
theorem Loc.markPublished {at₀ : ℕ} {C : List OutboxRow} {F : List (EventId × String)}
    (hl : Loc i d (.markPublished at₀ C F)) (hu : updateAll i at₀ d C = some d') :
    (∀ row ∈ C, ∃ r, (d.outbox row.id).base = some r) ∧
    ∃ T, d' = { d with outbox := T } ∧ Table.Own i d.outbox T ∧
      (∀ k, k ∉ C.map OutboxRow.id → T k = d.outbox k) ∧
      Table.Writes i (marksPublished at₀ C ++ lockedIds F) T := by
  have hbase : ∀ row ∈ C, ∃ r, (d.outbox row.id).base = some r := by
    intro row hrow
    have hk : row.id ∈ (Pc.markPublished at₀ C F).ids := by
      simp only [Pc.ids, Pc.writes, List.map_append, locked_ids]
      exact List.mem_append_left _ (List.mem_map_of_mem hrow)
    rcases hl.in_hand id hk with ⟨-, r, hr, -⟩
    exact ⟨r, hr⟩
  exact ⟨hbase, updateAll_written [] (hl.writes id) hl.nodup hbase hu⟩

/-- The UPDATE of a failed row. -/
theorem Loc.markFailed {at₀ : ℕ} {C : List OutboxRow} {k : EventId} {message : String}
    {marked todo : List (EventId × String)}
    (hl : Loc i d (.markFailed at₀ C marked ((k, message) :: todo)))
    (hu : update i d k (markFailedRow message) = some d') :
    ∃ row, (d.outbox k).base = some row ∧ Pending row ∧ (d.outbox k).Held i ∧
      d' = { d with outbox := d.outbox.put i k (some (markFailedRow message row)) } := by
  have hk : k ∈ (Pc.markFailed at₀ C marked ((k, message) :: todo)).ids := by
    simp [Pc.ids, Pc.writes, lockedIds]
  rcases hl.in_hand id hk with ⟨-, row, hbase, hpend⟩
  have hw : Table.Writes i ((marksPublished at₀ C ++ marksFailed marked) ++
      (k, id) :: lockedIds todo) d.outbox := by
    have hw := hl.writes id
    simpa [Pc.writes, lockedIds] using hw
  rcases update_written hw hbase hu with ⟨hheld, rfl⟩
  exact ⟨row, hbase, hpend, hheld, rfl⟩

/-- Every statement of a pass has one of five effects; the invariant is then kept by looking at
these. -/
theorem stmt_effect (hinv : Inv d) (hl : Loc i d pc) (h : stmt i d pc a = some (d', pc')) :
    Effect i d d' pc' := by
  rcases stmt_cases h with ⟨-, hrun⟩ | ⟨err, rfl, rfl⟩ | ⟨-, rfl, rfl⟩ | ⟨at₀, n, rfl, rfl, rfl⟩
  · cases hrun with
    -- SELECT ... FOR UPDATE SKIP LOCKED takes a row that is free
    | take hv =>
        rcases visit_spec hv with ⟨hfree, hbase, -⟩
        exact Effect.put hinv hbase hfree
    | @publish at₀ sent row todo =>
        have hk : row.id ∈ (Pc.publish at₀ sent (row :: todo)).ids := by
          simp [Pc.ids, Pc.writes]
        rcases hl.in_hand id hk with ⟨hheld, row', hbase, -⟩
        refine .publish (hinv.base_inserted hbase) hheld ?_ (hl.not_passed id)
        intro n s hs hpass heq
        -- every message of this pass is for a row before this one
        have hin := hl.messages.2 n s hs hpass
        have hnodup : ((sent.map Prod.fst ++ row :: todo).map OutboxRow.id).Nodup := by
          simpa [Pc.ids, Pc.writes] using hl.nodup
        rw [List.map_append, List.nodup_append] at hnodup
        exact hnodup.2.2 s.row.id
          (List.mem_map_of_mem (List.mem_map_of_mem (f := Prod.fst) hin)) row.id (by simp) heq
    | markPublished hu =>
        rcases hl.markPublished hu with ⟨hbase, T, rfl, hown, hother, hw⟩
        refine .write hown ?_ ?_
        -- only rows in hand are written, and those were inserted
        · intro k hk
          apply hother
          intro hmem
          rcases List.mem_map.mp hmem with ⟨row, hrow, rfl⟩
          rcases hbase row hrow with ⟨r, hr⟩
          exact hk (hinv.base_inserted hr)
        · intro k hk
          rw [hw.held k, List.map_append, marksPublished_ids]
          simpa [Pc.writes] using ((hl.writes id).held k).mp hk
    | markFailed hu =>
        rcases hl.markFailed hu with ⟨row, hbase, -, hheld, rfl⟩
        exact Effect.put hinv hbase hheld.free
    | commitEmpty =>
        -- the pass has sent nothing
        have hw : Table.Writes i (marksPublished 0 [] ++ marksFailed []) d.outbox := hl.writes id
        refine Effect.commit hw ⟨?_, ?_, ?_⟩ (hl.not_passed id)
        · intro k hk
          cases hk
        · intro k hk
          cases hk
        · intro n s hs hpass
          exact absurd hpass (hl.messages n s hs)
    | commit => exact .commit (hl.writes id) hl.messages (hl.not_passed id)
    | rollback => exact .rollback trivial
    | _ => exact .quiet
  · exact .quiet
  · exact .rollback trivial
  · exact .quiet

end Marketplace.Outbox.Relay
