import Marketplace.Core.Groups
import Marketplace.Outbox.RelaySafety
import Mathlib.Algebra.Order.BigOperators.Group.List
import Mathlib.Algebra.Order.Ring.Nat

/-!
# Outbox.Work — how much the relays have to do

What committed passes report adds up: `published` to the events that are marked, and `published`
and `failed` together to no more than `relayMaxAttempts` tries for each event there ever was. A
COMMIT takes one try from every row in hand (`Commits.left`), and a published row has no try
left. So a row that the broker keeps refusing can not keep the relays busy for ever.
-/

namespace Marketplace.Outbox.Relay

open Core

variable {i : ℕ} {d d' : Db} {pc pc' : Pc} {a : Stmt} {e : Env} {k : EventId}

/-! ## The figures -/

/-- What a pass has reported. -/
def Pc.result : Pc → RelayResult
  | .done (.ok result) => result
  | _ => ⟨0, 0⟩

/-- The sum of a figure over the committed passes. -/
def total (f : RelayResult → ℕ) (s : St) : ℕ :=
  (s.shared.passes.map fun i => f (s.proc i).result).sum

/-- `countPending`. -/
def countPending (d : Db) : ℕ :=
  (d.inserted.filter fun k => (d.outbox k).base.any fun row => decide (Pending row)).length

/-- `published_at IS NULL AND attempts >= $1`. -/
def Parked (row : OutboxRow) : Prop := row.publishedAt = none ∧ relayMaxAttempts ≤ row.attempts

instance : DecidablePred Parked := fun _ => inferInstanceAs (Decidable (_ ∧ _))

/-- `countParked`. -/
def countParked (d : Db) : ℕ :=
  (d.inserted.filter fun k => (d.outbox k).base.any fun row => decide (Parked row)).length

/-- The event is published; its row may have been purged since. -/
def Published (d : Db) (k : EventId) : Prop :=
  ∀ row, (d.outbox k).base = some row → row.publishedAt ≠ none

instance (d : Db) : DecidablePred (Published d) := fun k =>
  match h : (d.outbox k).base with
  | none => isTrue (by intro row hrow; rw [h] at hrow; cases hrow)
  | some row =>
      if hp : row.publishedAt = none then isFalse (fun hall => hall row h hp)
      else isTrue (by intro row' hrow'; rw [h] at hrow'; cases hrow'; exact hp)

/-- The publishes the relays would still try. -/
def left (d : Db) (k : EventId) : ℕ :=
  match (d.outbox k).base with
  | some row => if row.publishedAt = none then relayMaxAttempts - row.attempts else 0
  | none => 0

/-! ## A COMMIT -/

/-- Pass `i` commits `C` as published and `F` as failed. -/
structure Commits (i : ℕ) (d d' : Db) (at₀ : ℕ) (C : List OutboxRow)
    (F : List (EventId × String)) : Prop where
  after : d' = d.commit i
  writes : Table.Writes i (marksPublished at₀ C ++ marksFailed F) d.outbox
  nodup : (C.map OutboxRow.id ++ F.map Prod.fst).Nodup
  pending : ∀ k, (d.outbox k).Held i → ∃ row, (d.outbox k).base = some row ∧ Pending row

section Commit

variable {at₀ : ℕ} {C : List OutboxRow} {F : List (EventId × String)}

/-- A COMMIT leaves a row as it is, or the row was pending and in hand, and now it is published,
or has one attempt more. -/
theorem Commits.row (hc : Commits i d d' at₀ C F) :
    (k ∉ C.map OutboxRow.id ++ F.map Prod.fst ∧ (d'.outbox k).base = (d.outbox k).base) ∨
    ∃ row, (d.outbox k).base = some row ∧ Pending row ∧
      ((k ∈ C.map OutboxRow.id ∧ (d'.outbox k).base = some (markPublishedRow at₀ row)) ∨
        k ∈ F.map Prod.fst ∧ ∃ message,
          (d'.outbox k).base = some (markFailedRow message row)) := by
  have hids : (marksPublished at₀ C ++ marksFailed F).map Prod.fst =
      C.map OutboxRow.id ++ F.map Prod.fst := by
    rw [List.map_append, marksPublished_ids, marksFailed_ids]
  have hbase : ∀ k, (d'.outbox k).base = (d.outbox.commit i k).base := by
    intro k
    rw [hc.after]
    rfl
  by_cases hk : k ∈ C.map OutboxRow.id ++ F.map Prod.fst
  · right
    obtain ⟨row, hrow, hp⟩ := hc.pending k ((hc.writes.held k).mpr (hids ▸ hk))
    refine ⟨row, hrow, hp, ?_⟩
    rcases List.mem_append.mp hk with hk | hk
    · left
      refine ⟨hk, ?_⟩
      obtain ⟨r, hr, rfl⟩ := List.mem_map.mp hk
      have hw := hc.writes.commit_written
        (List.mem_append_left _ (List.mem_map.mpr ⟨r, hr, rfl⟩))
      rw [hbase, hw, hrow]
      rfl
    · right
      refine ⟨hk, ?_⟩
      obtain ⟨q, hq, rfl⟩ := List.mem_map.mp hk
      have hw := hc.writes.commit_written
        (List.mem_append_right _ (List.mem_map.mpr ⟨q, hq, rfl⟩))
      refine ⟨q.2, ?_⟩
      rw [hbase, hw, hrow]
      rfl
  -- not in hand
  · left
    refine ⟨hk, ?_⟩
    rw [hbase, hc.writes.commit_other (hids.symm ▸ hk)]

/-- The rows in hand are in the table. -/
theorem Commits.inserted (hc : Commits i d d' at₀ C F) (hinv : Inv d) :
    ∀ k ∈ C.map OutboxRow.id ++ F.map Prod.fst, k ∈ d.inserted := by
  intro k hk
  rcases hc.row (k := k) with ⟨hno, -⟩ | ⟨row, hrow, -⟩
  · exact absurd hk hno
  · exact hinv.base_inserted hrow

/-- A published row is one that was, or one of `C`. -/
theorem Commits.published (hc : Commits i d d' at₀ C F) :
    Published d' k ↔ Published d k ∨ k ∈ C.map OutboxRow.id := by
  unfold Published
  rcases hc.row (k := k) with ⟨hno, heq⟩ | ⟨row, hrow, hp, ⟨hk, heq⟩ | ⟨hk, message, heq⟩⟩
  · rw [heq]
    constructor
    · exact Or.inl
    · rintro (hpub | hk)
      · exact hpub
      · exact absurd (List.mem_append_left _ hk) hno
  · constructor
    · exact fun _ => Or.inr hk
    · intro _ row' hrow'
      rw [heq] at hrow'
      cases hrow'
      exact Option.some_ne_none _
  · constructor
    · intro hpub
      have hno : row.publishedAt ≠ none := hpub (markFailedRow message row) heq
      exact absurd hp.1 hno
    · rintro (hpub | hkC)
      · exact absurd hp.1 (hpub row hrow)
      · exact absurd rfl ((List.nodup_append.mp hc.nodup).2.2 k hkC k hk)

/-- Every row in hand loses a try. -/
theorem Commits.left (hc : Commits i d d' at₀ C F) :
    left d' k + (if k ∈ C.map OutboxRow.id ++ F.map Prod.fst then 1 else 0) ≤ left d k := by
  unfold Relay.left
  rcases hc.row (k := k) with ⟨hno, heq⟩ | ⟨row, hrow, hp, hmarked⟩
  · rw [heq, if_neg hno]
    exact le_refl _
  · have hfew : row.attempts < relayMaxAttempts := hp.2
    have hsome : (if k ∈ C.map OutboxRow.id ++ F.map Prod.fst then 1 else 0) ≤ 1 := by
      split <;> omega
    rw [hrow]
    dsimp only
    rw [if_pos hp.1]
    rcases hmarked with ⟨-, heq⟩ | ⟨-, message, heq⟩
    · rw [heq]
      dsimp only [markPublishedRow]
      rw [if_neg (Option.some_ne_none _)]
      omega
    · rw [heq]
      dsimp only [markFailedRow]
      rw [if_pos hp.1]
      omega

end Commit

/-! ## One step -/

/-- What a statement does to the figures. -/
theorem stmt_work (hinv : Inv d) (hl : Loc i d pc) (h : stmt i d pc a = some (d', pc')) :
    i ∉ d.passes ∧ d'.inserted = d.inserted ∧
    ((d'.passes = d.passes ∧ ∀ k, (d'.outbox k).base = (d.outbox k).base) ∨
      ∃ at₀ C F, Commits i d d' at₀ C F ∧ d'.passes = d.passes ++ [i] ∧
        pc'.result = ⟨C.length, F.length⟩) := by
  have hnew : i ∉ d.passes := by
    intro hin
    have hfinal := (hl.passes hin).final (i := i) d a
    rw [h] at hfinal
    cases hfinal
  have he := stmt_effect hinv hl h
  -- the two COMMITs differ in what the pass has in hand
  have hcommits : ∀ {at₀ C F}, ¬ pc.Rolling → pc.writes = marksPublished at₀ C ++ marksFailed F →
      Commits i d (d.commit i) at₀ C F := by
    intro at₀ C F hroll hwrites
    have hids : pc.ids = C.map OutboxRow.id ++ F.map Prod.fst := by
      unfold Pc.ids
      rw [hwrites, List.map_append, marksPublished_ids, marksFailed_ids]
    exact ⟨rfl, hwrites ▸ hl.writes hroll, hids ▸ hl.nodup, hl.pending⟩
  by_cases hdone : pc'.Committed
  · -- the COMMIT of a pass that has rows, or of one that has none
    refine ⟨hnew, ?_⟩
    rcases stmt_cases h with ⟨-, hr⟩ | ⟨err, -, rfl⟩ | ⟨-, -, rfl⟩ | ⟨at₀, n, -, -, rfl⟩
    · cases hr with
      | commit => exact ⟨rfl, Or.inr ⟨_, _, _, hcommits id rfl, rfl, rfl⟩⟩
      | commitEmpty => exact ⟨rfl, Or.inr ⟨0, [], [], hcommits id rfl, rfl, rfl⟩⟩
      | claimed =>
          unfold claimed at hdone
          split at hdone <;> exact hdone.elim
      | _ => exact hdone.elim
    · exact hdone.elim
    · exact hdone.elim
    · exact hdone.elim
  · refine ⟨hnew, ?_⟩
    have hbase := fun k => he.uncommitted hdone k
    cases he with
    | commit => exact absurd trivial hdone
    | _ => exact ⟨rfl, Or.inl ⟨rfl, hbase⟩⟩

/-- The rows that are there, pass by pass. -/
structure Accounted (s : St) : Prop where
  published : total RelayResult.published s =
    (s.shared.inserted.filter fun k => Published s.shared k).length
  tries : total RelayResult.published s + total RelayResult.failed s +
    (s.shared.inserted.map (left s.shared)).sum ≤ relayMaxAttempts * s.shared.inserted.length

/-- A call that has not committed yet does not count. -/
theorem total_other {f : RelayResult → ℕ} {s : St} (hnew : i ∉ s.shared.passes) :
    (s.shared.passes.map fun j => f (Function.update s.proc i pc' j).result).sum = total f s := by
  unfold total
  apply congrArg List.sum
  apply List.map_congr_left
  intro j hj
  have hne : j ≠ i := by
    rintro rfl
    exact hnew hj
  rw [Function.update_of_ne hne]

/-- A pass that commits adds its own result to the totals. -/
theorem total_concat {f : RelayResult → ℕ} {s : St} (hnew : i ∉ s.shared.passes) :
    ((s.shared.passes ++ [i]).map fun j => f (Function.update s.proc i pc' j).result).sum =
      total f s + f pc'.result := by
  rw [List.map_append, List.sum_append, total_other hnew, List.map_singleton,
    Function.update_self, List.sum_singleton]

/-- A statement of a pass keeps the accounts: a COMMIT adds as many published rows as its result
says, and uses up one try for each row in hand. -/
theorem Accounted.call {s : St} (hs : Accounted s) (hinv : Inv s.shared)
    (hl : Loc i s.shared (s.proc i)) (h : stmt i s.shared (s.proc i) a = some (d', pc')) :
    Accounted ⟨d', Function.update s.proc i pc'⟩ := by
  obtain ⟨hnew, hins, ⟨hpasses, hbase⟩ | ⟨at₀, C, F, hc, hpasses, hresult⟩⟩ :=
    stmt_work hinv hl h
  · -- nothing that is committed has changed
    have htotal : ∀ f, total f ⟨d', Function.update s.proc i pc'⟩ = total f s := by
      intro f
      unfold total
      dsimp only
      rw [hpasses]
      exact total_other hnew
    have hpub : ∀ k, Published d' k ↔ Published s.shared k := by
      intro k
      unfold Published
      rw [hbase k]
    have hleft : left d' = left s.shared := by
      funext k
      unfold left
      rw [hbase k]
    constructor
    · rw [htotal, hs.published]
      show _ = (d'.inserted.filter fun k => Published d' k).length
      rw [hins]
      simp only [hpub]
    · rw [htotal, htotal]
      show _ + _ + (d'.inserted.map (left d')).sum ≤ _ * d'.inserted.length
      rw [hins, hleft]
      exact hs.tries
  · have htotal : ∀ f, total f ⟨d', Function.update s.proc i pc'⟩ =
        total f s + f ⟨C.length, F.length⟩ := by
      intro f
      rw [← hresult]
      unfold total
      dsimp only
      rw [hpasses]
      exact total_concat hnew
    have hin := hc.inserted hinv
    have hnodup := List.nodup_append.mp hc.nodup
    constructor
    · rw [htotal, hs.published]
      show _ + C.length = (d'.inserted.filter fun k => Published d' k).length
      have hlen : (C.map OutboxRow.id).length = C.length := List.length_map ..
      rw [hins, ← hlen]
      symm
      -- the rows published are those before and those of `C`, which were not
      apply Groups.count_grown hinv.distinct hnodup.1
      · exact fun k hk => hin k (List.mem_append_left _ hk)
      · exact fun k _ => hc.published
      · intro k hk hpub
        rcases hc.row (k := k) with ⟨hno, -⟩ | ⟨row, hrow, hp, -⟩
        · exact hno (List.mem_append_left _ hk)
        · exact hpub row hrow hp.1
    · rw [htotal, htotal]
      show total _ s + C.length + (total _ s + F.length) + (d'.inserted.map (left d')).sum ≤
        _ * d'.inserted.length
      -- each row in hand loses a try, and no row gains one
      have hmarked := Groups.sum_marked hinv.distinct hc.nodup hin
      rw [List.length_append, List.length_map, List.length_map] at hmarked
      have hsum : (s.shared.inserted.map fun k => left d' k +
          if k ∈ C.map OutboxRow.id ++ F.map Prod.fst then 1 else 0).sum ≤
          (s.shared.inserted.map (left s.shared)).sum :=
        List.sum_le_sum fun k _ => hc.left
      rw [List.sum_map_add, hmarked] at hsum
      have htries := hs.tries
      rw [hins]
      omega

/-- A row has at most as many tries left as there are in all. -/
theorem left_le (d : Db) (k : EventId) : left d k ≤ relayMaxAttempts := by
  unfold left
  split
  · split <;> omega
  · omega

/-- A pass counts for what its own result says, whatever becomes of the rows. -/
theorem total_env {f : RelayResult → ℕ} {s : St} (hpasses : d'.passes = s.shared.passes) :
    total f ⟨d', s.proc⟩ = total f s := by
  unfold total
  dsimp only
  rw [hpasses]

/-- An event that changes no row as far as the accounts go. -/
theorem Accounted.same {s : St} (hs : Accounted s) (hins : d'.inserted = s.shared.inserted)
    (hpasses : d'.passes = s.shared.passes)
    (hrows : ∀ k, (Published d' k ↔ Published s.shared k) ∧ left d' k = left s.shared k) :
    Accounted ⟨d', s.proc⟩ where
  published := by
    rw [total_env hpasses, hs.published]
    show _ = (d'.inserted.filter fun k => Published d' k).length
    rw [hins]
    simp only [fun k => (hrows k).1]
  tries := by
    rw [total_env hpasses, total_env hpasses]
    show _ + _ + (d'.inserted.map (left d')).sum ≤ _ * d'.inserted.length
    rw [hins, show left d' = left s.shared from funext fun k => (hrows k).2]
    exact hs.tries

/-- A new row is not published, and brings its own tries. -/
theorem Accounted.insert {row : OutboxRow} {s : St} (hs : Accounted s)
    (hid : row.id ∉ s.shared.inserted) (hpub : row.publishedAt = none)
    (hins : d'.inserted = s.shared.inserted ++ [row.id])
    (hpasses : d'.passes = s.shared.passes)
    (houtbox : d'.outbox = Function.update s.shared.outbox row.id (.settled (some row))) :
    Accounted ⟨d', s.proc⟩ := by
  have hnew : (d'.outbox row.id).base = some row := by
    rw [houtbox, Function.update_self]
    rfl
  have hother : ∀ k ∈ s.shared.inserted, d'.outbox k = s.shared.outbox k := by
    intro k hk
    have hne : k ≠ row.id := by
      rintro rfl
      exact hid hk
    rw [houtbox]
    exact Function.update_of_ne hne ..
  constructor
  · rw [total_env hpasses, hs.published]
    show _ = (d'.inserted.filter fun k => Published d' k).length
    have hnone : [row.id].filter (fun k => decide (Published d' k)) = [] := by
      rw [List.filter_eq_nil_iff]
      intro k hk hdec
      rw [List.mem_singleton.mp hk, decide_eq_true_eq] at hdec
      exact hdec row hnew hpub
    rw [hins, List.filter_append, hnone, List.append_nil]
    apply congrArg List.length
    apply List.filter_congr
    intro k hk
    apply decide_eq_decide.mpr
    unfold Published
    rw [hother k hk]
  · rw [total_env hpasses, total_env hpasses]
    show _ + _ + (d'.inserted.map (left d')).sum ≤ _ * d'.inserted.length
    have hold : s.shared.inserted.map (left d') = s.shared.inserted.map (left s.shared) := by
      apply List.map_congr_left
      intro k hk
      unfold left
      rw [hother k hk]
    have hle := left_le d' row.id
    have htries := hs.tries
    rw [hins, List.map_append, List.sum_append, hold, List.map_singleton, List.sum_singleton,
      List.length_append, List.length_singleton, Nat.mul_add, Nat.mul_one]
    omega

/-- What broker, orders and retention do keeps the accounts. -/
theorem Accounted.env {s : St} (hs : Accounted s)
    (h : env s.shared e = some d') : Accounted ⟨d', s.proc⟩ := by
  have message : ((∃ n, e = .accept n) ∨ (∃ n, e = .confirm n) ∨
      ∃ n message, e = .reject n message) → Accounted ⟨d', s.proc⟩ := by
    intro he
    obtain ⟨n, x, x', -, -, rfl⟩ := env_message he h
    exact hs.same rfl rfl fun k => ⟨Iff.rfl, rfl⟩
  cases e with
  | insert row =>
      obtain ⟨hid, hpub, -, hd⟩ := env_insert h
      exact hs.insert hid hpub (by rw [hd]) (by rw [hd]) (by rw [hd])
  | accept n => exact message (Or.inl ⟨n, rfl⟩)
  | confirm n => exact message (Or.inr (Or.inl ⟨n, rfl⟩))
  | reject n m => exact message (Or.inr (Or.inr ⟨n, m, rfl⟩))
  -- a deleted row was published, and counts as published for good
  | purge cutoff ids =>
      obtain ⟨hall, rfl⟩ := env_purge h
      refine hs.same rfl rfl ?_
      intro k
      unfold Published left
      dsimp only
      by_cases hk : k ∈ ids
      · obtain ⟨-, row, hrow, t, ht, -⟩ := hall k hk
        rw [if_pos hk, hrow]
        constructor
        · constructor
          · intro _ row' hrow'
            cases hrow'
            rw [ht]
            exact Option.some_ne_none _
          · intro _ row' hrow'
            cases hrow'
        · dsimp only
          rw [ht, if_neg (Option.some_ne_none _)]
          rfl
      -- a row that stays
      · rw [if_neg hk]
        exact ⟨Iff.rfl, rfl⟩
  | tick dt =>
      cases h
      exact hs.same rfl rfl fun k => ⟨Iff.rfl, rfl⟩

/-! ## Whole runs -/

/-- The accounts hold in every reachable state. -/
theorem accounted {s : St} (hs : machine.Reachable s) : Accounted s := by
  apply hs.invariant_of
  · rintro s ⟨hinit, -⟩
    obtain ⟨-, -, hinserted, hpasses⟩ := hinit
    constructor
    · unfold total
      rw [hinserted, hpasses]
      rfl
    · unfold total
      rw [hinserted, hpasses]
      exact le_refl _
  · intro t l u ht hn h
    obtain ⟨s₀, as, hinit, hrun⟩ := ht
    have hholds := holds hinit hrun
    cases l with
    | call i a =>
        obtain ⟨d, pc, hst, rfl⟩ := Procs.next_call hn
        exact h.call hholds.1 (hholds.2 i) hst
    | env e =>
        obtain ⟨d, hd, rfl⟩ := Procs.next_env hn
        exact h.env hd

/-- The passes that published or failed something. -/
def busyPasses (s : St) : ℕ :=
  (s.shared.passes.filter fun i => 0 < (s.proc i).result.published +
    (s.proc i).result.failed).length

/-- A pass that did anything has published or failed at least one row. -/
theorem busyPasses_le (s : St) :
    busyPasses s ≤ total RelayResult.published s + total RelayResult.failed s := by
  unfold busyPasses total
  rw [← List.sum_map_add, ← Groups.sum_ite]
  apply List.sum_le_sum
  intro i _
  split <;> omega

/-- An event is published, pending or parked. -/
theorem one_of_three (d : Db) (k : EventId) :
    (if Published d k then 1 else 0) +
      (if ((d.outbox k).base.any fun row => decide (Pending row)) = true then 1 else 0) +
      (if ((d.outbox k).base.any fun row => decide (Parked row)) = true then 1 else 0) = 1 := by
  cases hk : (d.outbox k).base with
  | none =>
      have hpub : Published d k := by
        intro row hrow
        rw [hk] at hrow
        cases hrow
      simp [hpub]
  | some row =>
      have hpub : Published d k ↔ row.publishedAt ≠ none := by
        simp [Published, hk]
      by_cases hp : row.publishedAt = none
      · by_cases hfew : row.attempts < relayMaxAttempts
        · simp [hpub, Pending, Parked, hp, hfew]
        · simp [hpub, Pending, Parked, hp, hfew, not_lt.mp hfew]
      · simp [hpub, Pending, Parked, hp]

/-- In every reachable state: the passes report every event as published once, and what they do
not report is pending or parked; and they have done no more than `relayMaxAttempts` publishes
for each event, so no more of them have found something to do. -/
theorem relay_accounts {s : St} (hs : machine.Reachable s) :
    total RelayResult.published s + countPending s.shared + countParked s.shared =
      s.shared.inserted.length ∧
    total RelayResult.published s + total RelayResult.failed s +
      (s.shared.inserted.map (left s.shared)).sum ≤ relayMaxAttempts * s.shared.inserted.length ∧
    busyPasses s ≤ relayMaxAttempts * s.shared.inserted.length := by
  have h := accounted hs
  have hbusy := busyPasses_le s
  have htries := h.tries
  refine ⟨?_, h.tries, by omega⟩
  have hthree := Groups.count_three (L := s.shared.inserted) fun k _ => one_of_three s.shared k
  simp only [Bool.decide_eq_true] at hthree
  rw [h.published]
  exact hthree

/-! ## A row that the broker keeps refusing -/

/-- Pass `i` sends the row as message `i`, which the broker refuses, and commits. -/
def refusedPass (i : ℕ) : List Label :=
  .call i (.start 50) :: List.replicate 5 (.call i .run) ++ [.env (.reject i "nacked")] ++
  List.replicate 5 (.call i .run)

def poisonRow : List Label :=
  .env (.insert orderPlacedRow) :: (List.range relayMaxAttempts).flatMap refusedPass

/-- The run in which the broker refuses one row until it is parked: the figures then add up with
that row as the parked one. -/
theorem relay_accounts_poisonRow : ∃ s, machine.Reachable s ∧ countParked s.shared = 1 ∧
    total RelayResult.published s + countPending s.shared + countParked s.shared =
      s.shared.inserted.length ∧
    total RelayResult.published s + total RelayResult.failed s +
      (s.shared.inserted.map (left s.shared)).sum ≤ relayMaxAttempts * s.shared.inserted.length ∧
    busyPasses s ≤ relayMaxAttempts * s.shared.inserted.length := by
  have hrun : (machine.exec (fun _ _ => true) emptyOutbox poisonRow).map
      (fun s => countParked s.shared) = some 1 := by decide +kernel
  rcases Option.map_eq_some_iff.mp hrun with ⟨s, hexec, hparked⟩
  have hs : machine.Reachable s := ⟨_, _, emptyOutbox_init, Machine.exec_always hexec⟩
  exact ⟨s, hs, hparked, relay_accounts hs⟩

end Marketplace.Outbox.Relay
