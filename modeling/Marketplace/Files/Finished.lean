import Marketplace.Files.Orphans

/-!
# Files.Finished — a finished file stays

No statement of any call takes a COMPLETED row away or gives it another key or owner, in any
run. A sweep locks what it deletes, and it locks PENDING rows only (`LockedPending`), which it
holds until it is through with them (`Holding`); a commit of the same file waits for the lock.
-/

namespace Marketplace.Files

open Core Auth

variable {h : Hashes} {i j : ℕ} {d d' : Db} {pc pc' : Pc} {a : Stmt} {id : FileId}
  {row : FileRow}

/-! ## Locks -/

/-- A locked row is PENDING. -/
def LockedPending (d : Db) : Prop :=
  ∀ id l, (d.files id).lock = some l → ∃ r, (d.files id).base = some r ∧ r.status = .pending

/-- A sweep holds the rows it has in hand. -/
def Holding (i : ℕ) (d : Db) (pc : Pc) : Prop := ∀ p ∈ pc.sweeping, (d.files p.1).Held i

theorem LockedPending.held (hl : LockedPending d) (hh : (d.files id).Held i) :
    ∃ r, (d.files id).base = some r ∧ r.status = .pending := by
  obtain ⟨v, hv⟩ := hh
  exact hl id _ hv

/-- What a sweep may lock is free and PENDING. -/
theorem orphan_pending {at₀ hours : ℕ} (hv : Versions d) (ho : orphan i at₀ hours d id = true) :
    (d.files id).Free i ∧ ∃ r, (d.files id).base = some r ∧ r.status = .pending := by
  unfold orphan at ho
  rw [Bool.and_eq_true, Option.any_eq_true] at ho
  obtain ⟨hfree, r, hview, hr⟩ := ho
  rw [Bool.and_eq_true] at hr
  exact ⟨of_decide_eq_true hfree, r, hv.view hview, by simpa using hr.1⟩

/-- A plain write locks nothing. -/
theorem LockedPending.setFile {k : FileId} (hl : LockedPending d) :
    LockedPending (setFile k row d) := by
  intro id l hlock
  by_cases hid : id = k
  · subst hid
    rw [setFile_self] at hlock
    cases hlock
  · rw [setFile_ne hid] at hlock ⊢
    exact hl id l hlock

/-- Every statement keeps the locked rows PENDING. -/
theorem LockedPending.effect (hl : LockedPending d) (hv : Versions d) (hh : Holding i d pc)
    (he : Effect i d d' pc) : LockedPending d' := by
  cases he with
  | same hf _ =>
      unfold LockedPending
      rw [hf]
      exact hl
  | insert hd => exact hd ▸ hl.setFile
  | setUpload _ _ hd => exact hd ▸ hl.setFile
  | complete _ _ _ hd => exact hd ▸ hl.setFile
  | @lock hours at₀ ids hsel hd =>
      subst hd
      intro id l hlock
      have hslot : (lockAll i ids d).files id =
        if id ∈ ids then (d.files id).put i ((d.files id).view i) else d.files id := rfl
      rw [hslot] at hlock ⊢
      split at hlock
      · next hin =>
          rw [if_pos hin]
          exact (orphan_pending hv (hsel.2.2.1 id hin)).2
      · next hnot =>
          rw [if_neg hnot]
          exact hl id l hlock
  | @delete rows hd =>
      subst hd
      intro id l hlock
      change Slot.lock (if id ∈ rows.map Prod.fst then (d.files id).put i none else d.files id) =
        some l at hlock
      show ∃ r, Slot.base (if id ∈ rows.map Prod.fst then (d.files id).put i none
        else d.files id) = some r ∧ r.status = .pending
      split at hlock
      · next hin =>
          rw [if_pos hin]
          obtain ⟨p, hp, rfl⟩ := List.mem_map.mp hin
          exact hl.held (hh p hp)
      · next hnot =>
          rw [if_neg hnot]
          exact hl id l hlock
  | commit hd =>
      subst hd
      intro id l hlock
      show ∃ r, ((d.files id).commit i).base = some r ∧ r.status = .pending
      change ((d.files id).commit i).lock = some l at hlock
      by_cases hheld : (d.files id).Held i
      · rw [Slot.commit_of_held hheld] at hlock
        cases hlock
      · rw [Slot.commit_of_not_held hheld] at hlock ⊢
        exact hl id l hlock
  | rollback hd =>
      subst hd
      intro id l hlock
      show ∃ r, ((d.files id).rollback i).base = some r ∧ r.status = .pending
      change ((d.files id).rollback i).lock = some l at hlock
      by_cases hheld : (d.files id).Held i
      · rw [Slot.rollback_of_held hheld] at hlock
        cases hlock
      · rw [Slot.rollback_of_not_held hheld] at hlock ⊢
        exact hl id l hlock

/-- A lock is given up by its own call only. -/
theorem Effect.held (he : Effect i d d' pc) (hv : Versions d) (hl : LockedPending d)
    (hi : Holding i d pc) (hne : j ≠ i) (hh : (d.files id).Held j) : (d'.files id).Held j := by
  -- a write needs a free row, so not one that another call holds
  have written : ∀ {k row'}, (d.files k).Free i → (((setFile k row' d).files id).Held j) := by
    intro k row' hfree
    have hid : id ≠ k := by
      rintro rfl
      exact hh.not_free hne hfree
    rwa [setFile_ne hid]
  cases he with
  | same hf _ => rwa [hf]
  | insert hd =>
      subst hd
      have hid : id ≠ d.nextFile := by
        obtain ⟨r, hb, -⟩ := hl.held hh
        exact Nat.ne_of_lt (hv.lt hb)
      rwa [insertRow_ne hid]
  | setUpload hfree _ hd => exact hd ▸ written hfree
  | complete hfree _ _ hd => exact hd ▸ written hfree
  | @lock hours at₀ ids hsel hd =>
      subst hd
      show Slot.Held j (if id ∈ ids then (d.files id).put i ((d.files id).view i) else d.files id)
      rw [if_neg]
      · exact hh
      · intro hin
        exact hh.not_free hne (orphan_pending hv (hsel.2.2.1 id hin)).1
  | @delete rows hd =>
      subst hd
      show Slot.Held j (if id ∈ rows.map Prod.fst then (d.files id).put i none else d.files id)
      rw [if_neg]
      · exact hh
      · intro hin
        obtain ⟨p, hp, rfl⟩ := List.mem_map.mp hin
        exact hne (hh.unique (hi p hp))
  | commit hd =>
      subst hd
      show ((d.files id).commit i).Held j
      rwa [hh.commit_other hne.symm]
  | rollback hd =>
      subst hd
      show ((d.files id).rollback i).Held j
      rwa [hh.rollback_other hne.symm]

/-- What a sweep has in hand next was in its batch. -/
theorem sweepNext_sweeping {rest rows : List (FileId × FileRow)} {p : FileId × FileRow}
    (hp : p ∈ (sweepNext rest rows).sweeping) : p ∈ rows := by
  unfold sweepNext at hp
  split at hp
  · split at hp
    · cases hp
    · exact hp
  · split at hp <;> exact hp

/-- What a sweep holds goes with its program point. -/
theorem Does.holding (hd : Does h i d pc a d' pc') (hh : Holding i d pc) : Holding i d' pc' := by
  intro p hp
  have hs : pc'.Sweeps := by
    revert hp
    cases pc' <;> first | exact fun _ => trivial | exact fun hp => nomatch hp
  have hcame := hd.next.sweeps hs
  cases hd with
  | @select hours at₀ ids hsel =>
      have hmem := sweepNext_sweeping hp
      unfold rowsOf at hmem
      obtain ⟨id, hid, hrow⟩ := List.mem_filterMap.mp hmem
      obtain ⟨r, -, rfl⟩ := Option.map_eq_some_iff.mp hrow
      show Slot.Held i (if id ∈ ids then (d.files id).put i ((d.files id).view i) else d.files id)
      rw [if_pos hid]
      exact Slot.held_put
  | sweepAbort _ => exact hh p hp
  | sweepObject => exact hh p (sweepNext_sweeping hp)
  | sweepObjectError => exact hh p (sweepNext_sweeping hp)
  | sweepDelete => cases hp
  | sweepCommit => cases hs
  | abort => cases hs
  | _ =>
      -- the others neither sweep nor have just selected
      rcases hcame with hno | ⟨hours, at₀, hno⟩
      · exact hno.elim
      · cases hno

/-! ## Finished files -/

/-- The file is COMPLETED, under this key, and the viewer may have it. -/
def Finished (d : Db) (viewer : AccessClaims) (id : FileId) (key : ObjectKey) : Prop :=
  ∃ r, (d.files id).base = some r ∧ r.status = .completed ∧ r.key = key ∧
    (r.ownerId = viewer.sub ∨ viewer.role = .admin)

/-- Every statement leaves a finished file finished. -/
theorem Finished.effect {viewer : AccessClaims} {key : ObjectKey} (hf : Finished d viewer id key)
    (hl : LockedPending d) (hv : Versions d) (he : Effect i d d' pc) :
    Finished d' viewer id key := by
  obtain ⟨r, hb, hc, hkey, hmay⟩ := hf
  have same : (d'.files id).base = (d.files id).base → Finished d' viewer id key :=
    fun heq => ⟨r, heq.trans hb, hc, hkey, hmay⟩
  cases he with
  | same hfiles _ => exact same (by rw [hfiles])
  | insert hd =>
      subst hd
      exact same (by rw [insertRow_ne (Nat.ne_of_lt (hv.lt hb))])
  | @setUpload k row r' u _ hb' hd =>
      subst hd
      by_cases hid : id = k
      · subst hid
        rw [hb] at hb'
        cases hb'
        exact ⟨{ r with uploadId := some u }, by rw [setFile_self, Slot.settled_base], hc, hkey,
          hmay⟩
      · exact same (by rw [setFile_ne hid])
  | @complete k row r' head magic _ hb' hp hd =>
      subst hd
      apply same
      rw [setFile_ne]
      -- the UPDATE changes a PENDING row
      rintro rfl
      rw [hb] at hb'
      cases hb'
      rw [hc] at hp
      cases hp
  | @lock hours at₀ ids _ hd =>
      subst hd
      apply same
      show Slot.base (if id ∈ ids then _ else _) = _
      split <;> rfl
  | @delete rows hd =>
      subst hd
      apply same
      show Slot.base (if id ∈ rows.map Prod.fst then _ else _) = _
      split <;> rfl
  -- a COMMIT of a sweep drops what it has locked, and that was PENDING
  | commit hd =>
      subst hd
      apply same
      show ((d.files id).commit i).base = _
      rw [Slot.commit_of_not_held]
      -- what a sweep has deleted was PENDING
      intro hheld
      obtain ⟨r', hb', hp⟩ := hl.held hheld
      rw [hb] at hb'
      cases hb'
      rw [hc] at hp
      cases hp
  | rollback hd =>
      subst hd
      exact same Slot.rollback_base

end Marketplace.Files
