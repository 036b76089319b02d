import Marketplace.Core.Batches
import Marketplace.Outbox.Relay

/-!
# Outbox.Retention — purgeOutbox, one DELETE at a time

`src/outbox/retention.ts`: a single sweeper, and between its batches whatever others commit.

* each batch deletes rows its subselect has chosen, any of the eligible ones;
* `write` is a change that another transaction commits: a new order's row, the two UPDATEs of
  the relay on a row it has found pending, a mark of the consumer. Their `now()` is not before
  `since`, and the cutoffs are not after it: that is what a cutoff in the past means;
* `deleted` is a ghost: the rows that the batches have removed.
-/

namespace Marketplace.Outbox.Retention

open Core Core.Batches Relay

def dayMs : ℕ := 24 * 60 * 60 * 1000
def outboxRetentionMs : ℕ := 7 * dayMs
def inboxRetentionMs : ℕ := 30 * dayMs
def purgeBatchSize : ℕ := 1000

structure PurgeOptions where
  outboxRetentionMs : Option ℕ
  inboxRetentionMs : Option ℕ
  batchSize : Option ℕ

structure PurgeResult where
  outbox : ℕ
  processed : ℕ
deriving DecidableEq, Repr

/-- A row of `processed_messages`. -/
structure Mark where
  messageId : String
  consumer : String
  processedAt : ℕ
deriving DecidableEq, Repr

def Mark.key (m : Mark) : String × String := (m.messageId, m.consumer)

structure Tables where
  outbox : Keyed OutboxRow.id
  processed : Keyed Mark.key

/-- A call of `purgeOutbox`. `startedAt` is its `Date.now()`. -/
structure Purge where
  startedAt : ℕ
  opts : PurgeOptions
  since : ℕ
  outbox_past : startedAt - opts.outboxRetentionMs.getD outboxRetentionMs ≤ since
  inbox_past : startedAt - opts.inboxRetentionMs.getD inboxRetentionMs ≤ since
  batch_pos : 1 ≤ opts.batchSize.getD purgeBatchSize

namespace Purge

variable (P : Purge)

def outboxCutoff : ℕ := P.startedAt - P.opts.outboxRetentionMs.getD outboxRetentionMs
def inboxCutoff : ℕ := P.startedAt - P.opts.inboxRetentionMs.getD inboxRetentionMs
def batch : ℕ := P.opts.batchSize.getD purgeBatchSize

/-- `published_at IS NOT NULL AND published_at < $1`. -/
def oldRow (row : OutboxRow) : Bool := decide (Purgeable P.outboxCutoff row)

/-- `processed_at < $1`. -/
def oldMark (m : Mark) : Bool := decide (m.processedAt < P.inboxCutoff)

/-- Each table swept by one unbounded DELETE. -/
def sweep (T : Tables) : Tables := ⟨swept P.oldRow T.outbox, swept P.oldMark T.processed⟩

end Purge

/-! ## The other transactions -/

inductive Write where
  | placed (row : OutboxRow)
  | published (id : EventId) (at₀ : ℕ)
  | failed (id : EventId) (message : String)
  | marked (m : Mark)

/-- `UPDATE outbox SET … WHERE id = …`. -/
def updateRow (id : EventId) (f : OutboxRow → OutboxRow) (row : OutboxRow) : OutboxRow :=
  if row.id = id then f row else row

/-- An UPDATE by id keeps the ids if its function does. -/
theorem updateRow_id {id : EventId} {f : OutboxRow → OutboxRow} (hf : ∀ row, (f row).id = row.id)
    (row : OutboxRow) : (updateRow id f row).id = row.id := by
  unfold updateRow
  split
  · exact hf row
  · rfl

theorem published_id (id : EventId) (at₀ : ℕ) (row : OutboxRow) :
    (updateRow id (markPublishedRow at₀) row).id = row.id :=
  updateRow_id (f := markPublishedRow at₀) (fun _ => rfl) row

theorem failed_id (id : EventId) (message : String) (row : OutboxRow) :
    (updateRow id (markFailedRow message) row).id = row.id :=
  updateRow_id (f := markFailedRow message) (fun _ => rfl) row

/-- A row of this id that is there has not been published. -/
def Unpublished (T : Tables) (id : EventId) : Prop :=
  ∀ row ∈ T.outbox.rows, row.id = id → row.publishedAt = none

instance (T : Tables) (id : EventId) : Decidable (Unpublished T id) :=
  inferInstanceAs (Decidable (∀ row ∈ _, _))

def write (since : ℕ) (T : Tables) : Write → Option Tables
  | .placed row =>
      if h : row.id ∉ T.outbox.rows.map OutboxRow.id ∧ row.publishedAt = none then
        some { T with outbox := T.outbox.insert row h.1 }
      else none
  | .published id at₀ =>
      if since ≤ at₀ ∧ Unpublished T id then
        some { T with
          outbox := T.outbox.modify (updateRow id (markPublishedRow at₀)) (published_id id at₀) }
      else none
  | .failed id message =>
      if Unpublished T id then
        some { T with
          outbox := T.outbox.modify (updateRow id (markFailedRow message)) (failed_id id message) }
      else none
  | .marked m =>
      -- ON CONFLICT DO NOTHING: a mark that is there is no change
      if h : m.key ∉ T.processed.rows.map Mark.key ∧ since ≤ m.processedAt then
        some { T with processed := T.processed.insert m h.1 }
      else none

/-- The writes one after the other. -/
def writeAll (since : ℕ) (T : Tables) (ws : List Write) : Option Tables :=
  ws.foldlM (write since) T

/-! ## The sweeper -/

/-- Where `purgeOutbox` is: in one of its two loops, with the totals so far, or at its end. -/
inductive Pc where
  | outbox (total : ℕ)
  | processed (outbox total : ℕ)
  | done (result : PurgeResult)

structure St where
  tables : Tables
  pc : Pc
  deletedRows : List OutboxRow
  deletedMarks : List Mark

inductive Label where
  | outboxBatch (ids : List EventId)
  | processedBatch (keys : List (String × String))
  | write (w : Write)

/-- `deleteInBatches`, when a DELETE has removed `n` rows. -/
def deleted (batch : ℕ) : Pc → ℕ → Pc
  | .outbox total, n =>
      if n < batch then .processed (total + n) 0 else .outbox (total + n)
  | .processed outbox total, n =>
      if n < batch then .done ⟨outbox, total + n⟩ else .processed outbox (total + n)
  | .done result, _ => .done result

def next (P : Purge) (s : St) : Label → Option St
  | .outboxBatch ids =>
      match s.pc with
      | .outbox total =>
          if Choice P.oldRow P.batch s.tables.outbox ids then
            some { s with
              tables.outbox := delete s.tables.outbox ids
              pc := deleted P.batch (.outbox total) (picked s.tables.outbox ids).length
              deletedRows := s.deletedRows ++ picked s.tables.outbox ids }
          else none
      | _ => none
  | .processedBatch keys =>
      match s.pc with
      | .processed outbox total =>
          if Choice P.oldMark P.batch s.tables.processed keys then
            some { s with
              tables.processed := delete s.tables.processed keys
              pc := deleted P.batch (.processed outbox total)
                (picked s.tables.processed keys).length
              deletedMarks := s.deletedMarks ++ picked s.tables.processed keys }
          else none
      | _ => none
  | .write w => (write P.since s.tables w).map fun T => { s with tables := T }

def machine (P : Purge) : Machine St Label where
  Init s := s.pc = .outbox 0 ∧ s.deletedRows = [] ∧ s.deletedMarks = []
  next := next P

/-- What the others did in a run. -/
def writes (as : List Label) : List Write :=
  as.filterMap fun
    | .write w => some w
    | _ => none

/-- How many DELETEs a run has. -/
def batches (as : List Label) : ℕ :=
  as.countP fun
    | .write _ => false
    | _ => true

/-! ## What a write leaves alone -/

section

variable {P : Purge} {T T' : Tables} {w : Write}

/-- A row that has not been published is never eligible, however old it is. -/
theorem oldRow_false_of_unpublished {row : OutboxRow} (h : row.publishedAt = none) :
    P.oldRow row = false := by
  refine decide_eq_false ?_
  rintro ⟨t, ht, -⟩
  rw [h] at ht
  cases ht

/-- The relay publishes after the cutoff. -/
theorem oldRow_published {at₀ : ℕ} {row : OutboxRow} (h : P.since ≤ at₀) :
    P.oldRow (markPublishedRow at₀ row) = false := by
  refine decide_eq_false ?_
  rintro ⟨t, ht, hlt⟩
  obtain rfl : at₀ = t := Option.some.inj ht
  have hpast : P.outboxCutoff ≤ P.since := P.outbox_past
  omega

theorem oldRow_failed {message : String} {row : OutboxRow} (h : row.publishedAt = none) :
    P.oldRow (markFailedRow message row) = false :=
  oldRow_false_of_unpublished h

/-- A mark made during the purge is newer than the cutoff. -/
theorem oldMark_false {m : Mark} (h : P.since ≤ m.processedAt) : P.oldMark m = false := by
  refine decide_eq_false ?_
  have hpast : P.inboxCutoff ≤ P.since := P.inbox_past
  omega

/-- An UPDATE of an unpublished row that does not make it eligible. -/
theorem updateRow_old {id : EventId} {f : OutboxRow → OutboxRow} (hid : Unpublished T id)
    (hf : ∀ row, row.publishedAt = none → P.oldRow (f row) = false) :
    ∀ row ∈ T.outbox.rows, P.oldRow (updateRow id f row) = P.oldRow row := by
  intro row hrow
  unfold updateRow
  split
  · next heq =>
      have hnone := hid row hrow heq
      rw [hf row hnone, oldRow_false_of_unpublished hnone]
  · rfl

/-- An UPDATE of an unpublished row changes no eligible one. -/
theorem updateRow_same {id : EventId} {f : OutboxRow → OutboxRow} (hid : Unpublished T id) :
    ∀ row ∈ T.outbox.rows, P.oldRow row = true → updateRow id f row = row := by
  intro row hrow hold
  unfold updateRow
  split
  · next heq =>
      rw [oldRow_false_of_unpublished (hid row hrow heq)] at hold
      cases hold
  · rfl

theorem unpublished_sweep {id : EventId} (h : Unpublished T id) : Unpublished (P.sweep T) id :=
  fun row hrow => h row (List.mem_filter.mp hrow).1

/-- A write commits on the swept tables as well, and gives the swept tables. -/
theorem write_sweep (h : write P.since T w = some T') :
    write P.since (P.sweep T) w = some (P.sweep T') := by
  cases w with
  -- a new row is not published, so the sweep keeps it
  | placed row =>
      simp only [write] at h
      split at h
      · next hrow =>
          cases h
          obtain ⟨hnot, heq⟩ := swept_insert hrow.1
            (oldRow_false_of_unpublished (P := P) hrow.2)
          simp only [write, Purge.sweep, heq]
          exact dif_pos ⟨hnot, hrow.2⟩
      · cases h
  -- the relay publishes a row now, which does not make it eligible
  | published id at₀ =>
      simp only [write] at h
      split at h
      · next hid =>
          cases h
          have hold : ∀ row ∈ T.outbox.rows,
              P.oldRow (updateRow id (markPublishedRow at₀) row) = P.oldRow row :=
            updateRow_old hid.2 fun _ _ => oldRow_published hid.1
          have heq := swept_modify (published_id id at₀) hold
          simp only [write, Purge.sweep, heq]
          exact if_pos ⟨hid.1, unpublished_sweep hid.2⟩
      · cases h
  | failed id message =>
      simp only [write] at h
      split at h
      · next hid =>
          cases h
          have hold : ∀ row ∈ T.outbox.rows,
              P.oldRow (updateRow id (markFailedRow message) row) = P.oldRow row :=
            updateRow_old hid fun _ => oldRow_failed
          have heq := swept_modify (failed_id id message) hold
          simp only [write, Purge.sweep, heq]
          exact if_pos (unpublished_sweep hid)
      · cases h
  -- a new mark is too young
  | marked m =>
      simp only [write] at h
      split at h
      · next hm =>
          cases h
          obtain ⟨hnot, heq⟩ := swept_insert hm.1 (oldMark_false hm.2)
          simp only [write, Purge.sweep, heq]
          exact dif_pos ⟨hnot, hm.2⟩
      · cases h

/-- A write makes no row eligible and changes none that is. -/
theorem write_eligible (h : write P.since T w = some T') :
    T'.outbox.rows.filter P.oldRow = T.outbox.rows.filter P.oldRow ∧
      T'.processed.rows.filter P.oldMark = T.processed.rows.filter P.oldMark := by
  cases w with
  | placed row =>
      simp only [write] at h
      split at h
      · next hrow =>
          cases h
          exact ⟨eligible_insert hrow.1 (oldRow_false_of_unpublished hrow.2), rfl⟩
      · cases h
  -- the UPDATE touches a row that was not eligible and is not afterwards
  | published id at₀ =>
      simp only [write] at h
      split at h
      · next hid =>
          cases h
          have hold : ∀ row ∈ T.outbox.rows,
              P.oldRow (updateRow id (markPublishedRow at₀) row) = P.oldRow row :=
            updateRow_old hid.2 fun _ _ => oldRow_published hid.1
          exact ⟨eligible_modify (published_id id at₀) hold (updateRow_same hid.2), rfl⟩
      · cases h
  | failed id message =>
      simp only [write] at h
      split at h
      · next hid =>
          cases h
          have hold : ∀ row ∈ T.outbox.rows,
              P.oldRow (updateRow id (markFailedRow message) row) = P.oldRow row :=
            updateRow_old hid fun _ => oldRow_failed
          exact ⟨eligible_modify (failed_id id message) hold (updateRow_same hid), rfl⟩
      · cases h
  | marked m =>
      simp only [write] at h
      split at h
      · next hm =>
          cases h
          exact ⟨rfl, eligible_insert hm.1 (oldMark_false hm.2)⟩
      · cases h

end

/-! ## The loops -/

section

variable (P : Purge)

def eligibleRows (T : Tables) : List OutboxRow := T.outbox.rows.filter P.oldRow
def eligibleMarks (T : Tables) : List Mark := T.processed.rows.filter P.oldMark

/-- The totals count the rows that are gone, and a loop that is over has left none. -/
def Tally (s : St) : Prop :=
  match s.pc with
  | .outbox total => total = s.deletedRows.length ∧ s.deletedMarks = []
  | .processed outbox total =>
      outbox = s.deletedRows.length ∧ total = s.deletedMarks.length ∧
        left P.oldRow s.tables.outbox = 0
  | .done result =>
      result = ⟨s.deletedRows.length, s.deletedMarks.length⟩ ∧
        left P.oldRow s.tables.outbox = 0 ∧ left P.oldMark s.tables.processed = 0

/-- A bound on the DELETEs to come. -/
def remaining (s : St) : ℕ :=
  match s.pc with
  | .outbox _ =>
      left P.oldRow s.tables.outbox / P.batch + 1 +
        (left P.oldMark s.tables.processed / P.batch + 1)
  | .processed _ _ => left P.oldMark s.tables.processed / P.batch + 1
  | .done _ => 0

/-- From `s` to `t` the batches have moved eligible rows out, and the other rows have seen the
writes only. -/
structure Progress (s : St) (as : List Label) (t : St) : Prop where
  replayed : writeAll P.since (P.sweep s.tables) (writes as) = some (P.sweep t.tables)
  rows : (t.deletedRows ++ eligibleRows P t.tables).Perm (eligibleRows P s.tables)
  marks : (t.deletedMarks ++ eligibleMarks P t.tables).Perm (eligibleMarks P s.tables)
  tally : Tally P t
  bound : batches as + remaining P t ≤ remaining P s

end

section

variable {P : Purge} {s t u : St} {as : List Label}

/-- Before the first batch nothing is deleted and nothing replayed. -/
theorem Progress.init (h : (machine P).Init s) : Progress P s [] s := by
  obtain ⟨hpc, hrows, hmarks⟩ := h
  refine ⟨rfl, by simp [hrows], by simp [hmarks], ?_, by simp [batches]⟩
  simp [Tally, hpc, hrows, hmarks]

/-- A write of another transaction in between is replayed on the swept tables; it moves no
eligible row, and no batch has to be added. -/
theorem Progress.write {w : Write} {T : Tables} (h : Progress P s as t)
    (hw : Retention.write P.since t.tables w = some T) :
    Progress P s (as ++ [.write w]) { t with tables := T } := by
  obtain ⟨hrows, hmarks⟩ := write_eligible hw
  have hleftRows : left P.oldRow T.outbox = left P.oldRow t.tables.outbox := by
    rw [left, hrows, left]
  have hleftMarks : left P.oldMark T.processed = left P.oldMark t.tables.processed := by
    rw [left, hmarks, left]
  constructor
  -- one write more on either side
  · have hreplayed := h.replayed
    simp only [writes, writeAll] at hreplayed
    simp only [writes, writeAll, List.filterMap_append, List.foldlM_append, hreplayed]
    simpa using write_sweep hw
  · show (t.deletedRows ++ T.outbox.rows.filter P.oldRow).Perm _
    rw [hrows]
    exact h.rows
  · show (t.deletedMarks ++ T.processed.rows.filter P.oldMark).Perm _
    rw [hmarks]
    exact h.marks
  · have htally := h.tally
    unfold Tally at htally ⊢
    rw [hleftRows, hleftMarks]
    exact htally
  · have hbound := h.bound
    have hcount : batches (as ++ [.write w]) = batches as := by simp [batches]
    have hremaining : remaining P { t with tables := T } = remaining P t := by
      unfold remaining
      rw [hleftRows, hleftMarks]
    rw [hcount, hremaining]
    exact hbound

/-- A full batch is one less to come. -/
theorem div_full {n l l' b : ℕ} (hb : 1 ≤ b) (hsum : n + l' = l) (hn : n = min b l)
    (hfull : ¬ n < b) : l' / b + 1 = l / b := by
  have hl : l = l' + b := by omega
  rw [hl, Nat.add_div_right _ hb]

/-- A batch of the outbox loop moves eligible rows from the table to the deleted ones, and a full
one brings the end nearer. -/
theorem Progress.outboxBatch {ids : List EventId} {total : ℕ} (h : Progress P s as t)
    (hpc : t.pc = .outbox total) (hchoice : Choice P.oldRow P.batch t.tables.outbox ids) :
    Progress P s (as ++ [.outboxBatch ids])
      { t with
        tables.outbox := delete t.tables.outbox ids
        pc := deleted P.batch (.outbox total) (picked t.tables.outbox ids).length
        deletedRows := t.deletedRows ++ picked t.tables.outbox ids } := by
  have htally : total = t.deletedRows.length ∧ t.deletedMarks = [] := by
    simpa only [Tally, hpc] using h.tally
  have hbound := h.bound
  simp only [remaining, hpc] at hbound
  have hcount : batches (as ++ [.outboxBatch ids]) = batches as + 1 := by simp [batches]
  have hwrites : writes (as ++ [.outboxBatch ids]) = writes as := by simp [writes]
  constructor
  · rw [hwrites, h.replayed]
    simp only [Purge.sweep, delete_swept hchoice]
  · show ((t.deletedRows ++ _) ++ (delete t.tables.outbox ids).rows.filter P.oldRow).Perm _
    rw [List.append_assoc]
    exact ((picked_perm hchoice).append_left _).trans h.rows
  · exact h.marks
  · by_cases hn : (picked t.tables.outbox ids).length < P.batch
    · simp [Tally, deleted, hn, htally.1, htally.2, delete_short hchoice hn]
    · simp [Tally, deleted, hn, htally.1, htally.2]
  · rw [hcount]
    by_cases hn : (picked t.tables.outbox ids).length < P.batch
    · simp only [remaining, deleted, if_pos hn]
      have hnonneg := Nat.zero_le (left P.oldRow t.tables.outbox / P.batch)
      omega
    · have hdiv : left P.oldRow (delete t.tables.outbox ids) / P.batch + 1 =
          left P.oldRow t.tables.outbox / P.batch :=
        div_full P.batch_pos (delete_left hchoice) hchoice.size hn
      simp only [remaining, deleted, if_neg hn]
      omega

/-- The same for a batch of the loop over the marks. -/
theorem Progress.processedBatch {keys : List (String × String)} {outbox total : ℕ}
    (h : Progress P s as t) (hpc : t.pc = .processed outbox total)
    (hchoice : Choice P.oldMark P.batch t.tables.processed keys) :
    Progress P s (as ++ [.processedBatch keys])
      { t with
        tables.processed := delete t.tables.processed keys
        pc := deleted P.batch (.processed outbox total) (picked t.tables.processed keys).length
        deletedMarks := t.deletedMarks ++ picked t.tables.processed keys } := by
  have htally : outbox = t.deletedRows.length ∧ total = t.deletedMarks.length ∧
      left P.oldRow t.tables.outbox = 0 := by
    simpa only [Tally, hpc] using h.tally
  obtain ⟨houtbox, htotal, hleft⟩ := htally
  have hbound := h.bound
  simp only [remaining, hpc] at hbound
  have hcount : batches (as ++ [.processedBatch keys]) = batches as + 1 := by simp [batches]
  have hwrites : writes (as ++ [.processedBatch keys]) = writes as := by simp [writes]
  constructor
  · rw [hwrites, h.replayed]
    simp only [Purge.sweep, delete_swept hchoice]
  · exact h.rows
  · show ((t.deletedMarks ++ _) ++ (delete t.tables.processed keys).rows.filter P.oldMark).Perm _
    rw [List.append_assoc]
    exact ((picked_perm hchoice).append_left _).trans h.marks
  · by_cases hn : (picked t.tables.processed keys).length < P.batch
    · simp [Tally, deleted, hn, houtbox, htotal, hleft, delete_short hchoice hn]
    · simp [Tally, deleted, hn, houtbox, htotal, hleft]
  · rw [hcount]
    by_cases hn : (picked t.tables.processed keys).length < P.batch
    · simp only [remaining, deleted, if_pos hn]
      have hnonneg := Nat.zero_le (left P.oldMark t.tables.processed / P.batch)
      omega
    · have hdiv : left P.oldMark (delete t.tables.processed keys) / P.batch + 1 =
          left P.oldMark t.tables.processed / P.batch :=
        div_full P.batch_pos (delete_left hchoice) hchoice.size hn
      simp only [remaining, deleted, if_neg hn]
      omega

/-- So every step of a purge, whoever takes it, is progress. -/
theorem Progress.step {a : Label} (h : Progress P s as t) (hn : next P t a = some u) :
    Progress P s (as ++ [a]) u := by
  cases a with
  | outboxBatch ids =>
      cases hpc : t.pc with
      | outbox total =>
          simp only [next, hpc] at hn
          split at hn
          · next hchoice =>
              cases hn
              exact h.outboxBatch hpc hchoice
          · cases hn
      | processed outbox total => simp [next, hpc] at hn
      | done result => simp [next, hpc] at hn
  | processedBatch keys =>
      cases hpc : t.pc with
      | processed outbox total =>
          simp only [next, hpc] at hn
          split at hn
          · next hchoice =>
              cases hn
              exact h.processedBatch hpc hchoice
          · cases hn
      | outbox total => simp [next, hpc] at hn
      | done result => simp [next, hpc] at hn
  | write w =>
      obtain ⟨T, hw, rfl⟩ := Option.map_eq_some_iff.mp hn
      exact h.write hw

/-- Induction over the run. -/
theorem progress_run (hinit : (machine P).Init s) (hr : (machine P).Run Machine.Always s as t) :
    Progress P s as t := by
  induction hr with
  | refl => exact Progress.init hinit
  | step _ _ hn ih => exact ih.step hn

/-- The sweeper can always go on until it is done. -/
theorem exists_batch (h : ∀ result, t.pc ≠ .done result) :
    ∃ a, batches [a] = 1 ∧ ∃ u, (machine P).next t a = some u := by
  cases hpc : t.pc with
  | outbox total =>
      obtain ⟨ids, hchoice⟩ := exists_choice P.oldRow P.batch t.tables.outbox
      refine ⟨.outboxBatch ids, rfl, ?_⟩
      simp [machine, next, hpc, hchoice]
  | processed outbox total =>
      obtain ⟨keys, hchoice⟩ := exists_choice P.oldMark P.batch t.tables.processed
      refine ⟨.processedBatch keys, rfl, ?_⟩
      simp [machine, next, hpc, hchoice]
  | done result => exact absurd hpc (h result)

/-- The batches of `purgeOutbox`, whatever their subselects choose and others write in between,
are one DELETE of each table followed by the same writes. A run has at most so many batches, and
until `purgeOutbox` is done there is a next one. -/
theorem purge_is_one_delete (P : Purge) (s t : St) (as : List Label)
    (hinit : (machine P).Init s) (hr : (machine P).Run Machine.Always s as t) :
    batches as ≤ (eligibleRows P s.tables).length / P.batch +
      (eligibleMarks P s.tables).length / P.batch + 2 ∧
    ((∀ result, t.pc ≠ .done result) →
      ∃ a, batches [a] = 1 ∧ ∃ u, (machine P).next t a = some u) ∧
    ∀ result, t.pc = .done result →
      result.outbox = t.deletedRows.length ∧ t.deletedRows.Perm (eligibleRows P s.tables) ∧
      result.processed = t.deletedMarks.length ∧ t.deletedMarks.Perm (eligibleMarks P s.tables) ∧
      (∀ row ∈ t.tables.outbox.rows, ¬ Purgeable P.outboxCutoff row) ∧
      (∀ m ∈ t.tables.processed.rows, ¬ m.processedAt < P.inboxCutoff) ∧
      writeAll P.since (P.sweep s.tables) (writes as) = some t.tables := by
  have h := progress_run hinit hr
  refine ⟨?_, exists_batch, ?_⟩
  · have hbound := h.bound
    have hstart : remaining P s = (eligibleRows P s.tables).length / P.batch + 1 +
        ((eligibleMarks P s.tables).length / P.batch + 1) := by
      simp only [remaining, hinit.1]
      rfl
    omega
  · intro result hpc
    have htally := h.tally
    simp only [Tally, hpc] at htally
    obtain ⟨rfl, hrows, hmarks⟩ := htally
    have hnoRows : eligibleRows P t.tables = [] := List.eq_nil_of_length_eq_zero hrows
    have hnoMarks : eligibleMarks P t.tables = [] := List.eq_nil_of_length_eq_zero hmarks
    have hswept : P.sweep t.tables = t.tables := by
      simp only [Purge.sweep, swept_of_left hrows, swept_of_left hmarks]
    refine ⟨rfl, ?_, rfl, ?_, ?_, ?_, ?_⟩
    · simpa [hnoRows] using h.rows
    · simpa [hnoMarks] using h.marks
    · intro row hrow
      exact of_decide_eq_false (not_eligible_of_left hrows row hrow)
    · intro m hm
      exact of_decide_eq_false (not_eligible_of_left hmarks m hm)
    · rw [h.replayed, hswept]

end

def exampleRow (id : EventId) (publishedAt : Option ℕ) : OutboxRow :=
  ⟨id, "order", "1", "order.placed", .null, 1, publishedAt, 1, none⟩

/-- Two old rows and one pending, in batches of one. -/
def examplePurge : Purge where
  startedAt := 100
  opts := ⟨some 10, some 10, some 1⟩
  since := 95
  outbox_past := by decide
  inbox_past := by decide
  batch_pos := by decide

def exampleStart : St where
  tables := ⟨⟨[exampleRow 1 (some 5), exampleRow 2 none, exampleRow 3 (some 7)], by decide⟩,
    ⟨[], by decide⟩⟩
  pc := .outbox 0
  deletedRows := []
  deletedMarks := []

/-- Three batches of the outbox loop, one of them after a write, delete two rows and no mark, and
leave the tables that one DELETE and the write would have given. -/
theorem purge_example : ∃ t : St, t.pc = .done ⟨2, 0⟩ ∧
    writeAll 95 (examplePurge.sweep exampleStart.tables) [.published 2 96] = some t.tables := by
  have hexec : ∃ t, (machine examplePurge).exec (fun _ _ => true) exampleStart
      [.outboxBatch [3], .write (.published 2 96), .outboxBatch [1], .outboxBatch [],
        .processedBatch []] = some t ∧ t.pc = .done ⟨2, 0⟩ := ⟨_, rfl, rfl⟩
  obtain ⟨t, ht, hpc⟩ := hexec
  have h := purge_is_one_delete examplePurge exampleStart t _ ⟨rfl, rfl, rfl⟩
    (Machine.exec_always ht)
  obtain ⟨-, -, -, -, -, -, hwrites⟩ := h.2.2 _ hpc
  exact ⟨t, hpc, hwrites⟩

end Marketplace.Outbox.Retention
