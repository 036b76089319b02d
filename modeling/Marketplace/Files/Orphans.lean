import Marketplace.Files.Completed
import Marketplace.Files.Identity

/-!
# Files.Orphans — does the sweep forget a row only after its storage is clean?

A sweep locks its rows, aborts the upload that each of them records and deletes each object, and
then deletes the rows; a failure gives all of them back. Two things get past it (`orphan_left`):

* `deleteKeys` does not look at the answer of DeleteObjects, which is 200 also when a key could
  not be deleted: the sweep goes on, and the row is gone while the object stays;
* an `intent` opens its upload in one call and records it in the next. A sweep that comes in
  between, or after a crash in between, sees no upload: the row is gone while the upload stays.

`orphans_clean`: in a run without the two, every step is safe. The invariant is `SweepLoc`: a
sweep has its rows locked, their open uploads are recorded, and the rows it has passed are clean.
-/

namespace Marketplace.Files

open Core Auth

/-! ## What a sweep promises -/

/-- No upload under the key of the row is open. -/
def Aborted (b : Bucket) (row : FileRow) : Prop :=
  ∀ u, b.openUpload row.key u = none

/-- An open upload under the key of the row is the one that the row records. -/
def Recorded (b : Bucket) (row : FileRow) : Prop :=
  ∀ u, b.openUpload row.key u ≠ none → row.uploadId = some u

/-- There is no object under the key of the row, and no open upload. -/
def Clean (b : Bucket) (row : FileRow) : Prop :=
  b.objects row.key = none ∧ Aborted b row

namespace Pc

/-- The rows a sweep is cleaning. -/
def sweeping : Pc → List (FileId × FileRow)
  | .sweepAbort _ rows | .sweepObject _ _ rows | .sweepDelete rows => rows
  | _ => []

end Pc

/-- What a step of the system owes to the orphans. -/
structure SweepSafe (s : St) (l : Label) (t : St) : Prop where
  /-- A row goes by the COMMIT of a sweep, PENDING and clean. -/
  clean : ∀ id row, (s.shared.files id).base = some row → (t.shared.files id).base = none →
    row.status = .pending ∧ Clean t.shared.bucket row ∧
    ∃ i count, l = .call i .run ∧ s.proc i = .sweepCommit count
  /-- A sweep that fails gives its rows back, PENDING, to be selected again. -/
  retried : ∀ i id row, l = .call i .abort → (s.shared.files id).Held i →
    (s.shared.files id).base = some row →
    t.shared.files id = Slot.settled (some row) ∧ row.status = .pending ∧
    ∀ j hours at₀ ids, row.createdAt + secs (hours * 3600) < at₀ →
      Selected j at₀ hours t.shared ids →
      id ∈ ids ∨ ids.length = batch ∧ ∀ k ∈ ids, createdAt j t.shared k ≤ row.createdAt
  /-- No two sweeps clean the same row. -/
  alone : ∀ i j p q, p ∈ (t.proc i).sweeping → q ∈ (t.proc j).sweeping → p.1 = q.1 → i = j
  /-- A row that is gone stays gone. -/
  once : ∀ id, id < s.shared.nextFile → (s.shared.files id).base = none →
    (t.shared.files id).base = none
  /-- A sweep leaves the COMPLETED rows and their objects alone. -/
  completed : ∀ i a id row, l = .call i a → (s.proc i).Sweeps →
    (s.shared.files id).base = some row → row.status = .completed →
    (t.shared.files id).base = some row ∧
    t.shared.bucket.objects row.key = s.shared.bucket.objects row.key

/-- No client uploads to the key of a row that a sweep has selected. -/
def NoUploads (s : St) (l : Label) : Prop :=
  ∀ url body, l = .env (.upload url body) → ∀ i id row, (s.shared.files id).Held i →
    (s.shared.files id).base = some row → row.key ≠ url.key

/-- No DeleteObjects of a sweep reports that it could not delete the key. -/
def NoKeyError (s : St) (l : Label) : Prop :=
  ∀ i, l = .call i .keyError → ¬ (s.proc i).Sweeps

/-- A sweep selects no row with an open upload that the row does not record, and no intent opens
an upload for a row that a sweep has selected. -/
structure UploadsRecorded (s : St) (l : Label) : Prop where
  selected : ∀ i ids, l = .call i (.select ids) → ∀ id ∈ ids, ∀ row,
    (s.shared.files id).base = some row → Recorded s.shared.bucket row
  opened : ∀ i id row, l = .call i .run → s.proc i = .intentCreate id row →
    ∀ j, ¬ (s.shared.files id).Held j

/-! ## Clean stays clean -/

variable {G : History} {h : Hashes} {i j : ℕ} {d d' : Db} {pc pc' : Pc} {a : Stmt} {id : FileId}
  {row : FileRow} {b b' : Bucket}

/-- An upload that is not open does not come to be by taking uploads away. -/
theorem openUpload_none_of {key : ObjectKey} {u : UploadId} (hnone : b.openUpload key u = none)
    (hup : b'.uploads u = none ∨ b'.uploads u = b.uploads u) : b'.openUpload key u = none := by
  unfold Bucket.openUpload at hnone ⊢
  rcases hup with hup | hup
  · rw [hup]
    rfl
  · rw [hup]
    exact hnone

/-- What only closes uploads leaves no other one open. -/
theorem Recorded.shrink (hr : Recorded b row)
    (hup : ∀ u, b'.uploads u = none ∨ b'.uploads u = b.uploads u) : Recorded b' row := by
  intro u hopen
  apply hr u
  intro hnone
  exact hopen (openUpload_none_of hnone (hup u))

theorem Aborted.shrink (ha : Aborted b row)
    (hup : ∀ u, b'.uploads u = none ∨ b'.uploads u = b.uploads u) : Aborted b' row :=
  fun u => openUpload_none_of (ha u) (hup u)

/-- Without an upload on record no upload is open. -/
theorem Recorded.aborted (hr : Recorded b row) (hnone : row.uploadId = none) : Aborted b row := by
  intro u
  by_contra hopen
  have hu := hr u hopen
  rw [hnone] at hu
  cases hu

/-- An aborted upload is not open. -/
theorem abortMultipart_closed (key : ObjectKey) (u : UploadId) (b : Bucket) :
    (b.abortMultipart key u).openUpload key u = none := by
  unfold Bucket.abortMultipart
  split
  · assumption
  · unfold Bucket.openUpload
    dsimp only
    rw [Function.update_self]
    rfl

/-- A part opens no upload. -/
theorem putPart_closed {key key' : ObjectKey} {u u' : UploadId} {n : ℕ} {body : Bytes}
    (hnone : b.openUpload key u = none) : (b.putPart key' u' n body).openUpload key u = none := by
  unfold Bucket.putPart
  split
  · exact hnone
  · next up hup =>
      by_cases hu : u = u'
      · subst hu
        -- a part does not change whose upload it is
        obtain ⟨hup', hkey⟩ := openUpload_some hup
        unfold Bucket.openUpload at hnone ⊢
        rw [hup', Option.filter_eq_none_iff] at hnone
        have hne := hnone up rfl
        dsimp only
        rw [Function.update_self, Option.filter_eq_none_iff]
        intro up' hup''
        cases hup''
        exact hne
      · refine openUpload_none_of hnone (Or.inr ?_)
        exact Function.update_of_ne hu ..

/-- A step to `b'` leaves the row recorded, its uploads aborted and its storage clean, where they
are. -/
structure KeepsClean (b b' : Bucket) (row : FileRow) : Prop where
  recorded : Recorded b row → Recorded b' row
  aborted : Aborted b row → Aborted b' row
  clean : Clean b row → Clean b' row

theorem KeepsClean.of_shrink (hup : ∀ u, b'.uploads u = none ∨ b'.uploads u = b.uploads u)
    (hobj : Clean b row → b'.objects row.key = none) : KeepsClean b b' row where
  recorded hr := hr.shrink hup
  aborted ha := ha.shrink hup
  clean hc := ⟨hobj hc, hc.2.shrink hup⟩

/-- A new upload under another key is none of the row. -/
theorem KeepsClean.create {key : ObjectKey} (hne : row.key ≠ key)
    (hclosed : b.uploads b.nextUpload = none) : KeepsClean b (b.createMultipart key).1 row := by
  have hsame : ∀ u, (b.createMultipart key).1.openUpload row.key u = b.openUpload row.key u := by
    intro u
    unfold Bucket.openUpload Bucket.createMultipart
    dsimp only
    by_cases hu : u = b.nextUpload
    · subst hu
      rw [Function.update_self, hclosed]
      simpa using Ne.symm hne
    · rw [Function.update_of_ne hu]
  have habort : Aborted b row → Aborted (b.createMultipart key).1 row :=
    fun ha u => (hsame u).trans (ha u)
  refine ⟨?_, habort, fun hc => ⟨hc.1, habort hc.2⟩⟩
  intro hr u hopen
  rw [hsame] at hopen
  exact hr u hopen

/-- What a statement does to the bucket leaves clean what is clean, if it opens no upload for the
row. -/
theorem Stored.keepsClean (hs : Stored d d' pc) (hf : FiledDb G d) (hk : FiledCall G i d pc)
    (hb : (d.files id).base = some row)
    (hnew : ∀ id' row', pc = .intentCreate id' row' → d'.bucket = d.bucket ∨ id' ≠ id) :
    KeepsClean d.bucket d'.bucket row := by
  have same : d'.bucket = d.bucket → KeepsClean d.bucket d'.bucket row := by
    intro heq
    rw [heq]
    exact ⟨fun hr => hr, fun ha => ha, fun hc => hc⟩
  cases hs with
  | same heq => exact same heq
  | @create id' row' heq =>
      rcases hnew id' row' rfl with hsame | hne
      · exact same hsame
      · have hkey : row.key ≠ row'.key := by
          intro hkey
          obtain ⟨f, hf', hof, -⟩ := hk
          exact hne (hf.rows.sameId ⟨f, hf', hof⟩ (hf.rows.rows id row hb) hkey.symm)
        rw [heq]
        exact KeepsClean.create hkey (hf.bucket.closed _ (Nat.le_refl _))
  -- completing closes one upload and makes one object, of another key
  | @complete id' row' u parts up o hup heq =>
      rw [heq]
      refine KeepsClean.of_shrink (update_none_shrinks d.bucket.uploads u) ?_
      intro hc
      have hne : row.key ≠ row'.key := by
        intro hkey
        -- the upload that is completed is open, and none of the row is
        have hclosed := hc.2 u
        rw [hkey, hup] at hclosed
        cases hclosed
      change Function.update d.bucket.objects row'.key (some o) row.key = none
      rw [Function.update_of_ne hne]
      exact hc.1
  | @delete _ key _ heq =>
      rw [heq]
      refine KeepsClean.of_shrink (fun u => Or.inr rfl) ?_
      intro hc
      rcases update_none_shrinks d.bucket.objects key row.key with hnone | hsame
      · exact hnone
      · exact hsame.trans hc.1
  | @abort _ row' u _ _ heq =>
      rw [heq]
      refine KeepsClean.of_shrink (abortMultipart_shrinks row'.key u d.bucket).2 ?_
      intro hc
      rw [abortMultipart_objects]
      exact hc.1

/-- A part leaves the uploads recorded. -/
theorem putPart_recorded {key : ObjectKey} {u : UploadId} {n : ℕ} {body : Bytes}
    (hr : Recorded b row) : Recorded (b.putPart key u n body) row := by
  intro u' hopen
  apply hr u'
  intro hnone
  exact hopen (putPart_closed hnone)

/-- What the environment does to the bucket leaves clean what is clean, if it does not
upload to the key. -/
theorem env_keepsClean {e : Env} (he : env h d e = some d')
    (hne : ∀ url body, e = .upload url body → row.key ≠ url.key) :
    KeepsClean d.bucket d'.bucket row := by
  cases e with
  | tick dt =>
      cases he
      exact ⟨id, id, id⟩
  -- a URL of another key touches neither the object nor the uploads of this one
  | upload url body =>
      have hkey := hne url body rfl
      simp only [env] at he
      split at he
      · cases he
        dsimp only
        unfold Bucket.usePresigned
        split
        · refine ⟨id, id, fun hc => ⟨?_, hc.2⟩⟩
          change Function.update d.bucket.objects url.key _ row.key = none
          rw [Function.update_of_ne hkey]
          exact hc.1
        · next u n _ =>
            have habort : Aborted d.bucket row →
                Aborted (d.bucket.putPart url.key u n body) row := by
              intro ha u'
              exact putPart_closed (ha u')
            refine ⟨putPart_recorded, habort, fun hc => ⟨?_, habort hc.2⟩⟩
            unfold Bucket.putPart
            split <;> exact hc.1
      · cases he
  | lifecycle key u =>
      cases he
      refine KeepsClean.of_shrink (abortMultipart_shrinks key u d.bucket).2 ?_
      intro hc
      rw [abortMultipart_objects]
      exact hc.1

/-! ## What a sweep knows -/

/-- The rows of the sweep are the ones it has locked, and they record their open uploads. -/
structure Batch (i : ℕ) (d : Db) (rows : List (FileId × FileRow)) : Prop where
  held : ∀ id, (d.files id).Held i → ∃ row, (id, row) ∈ rows
  locked : ∀ p ∈ rows, (d.files p.1).lock = some (i, some p.2)
  pending : ∀ p ∈ rows, p.2.status = .pending
  recorded : ∀ p ∈ rows, Recorded d.bucket p.2

/-- The rows before `rest` are clean. -/
def CleanUpTo (b : Bucket) (rest rows : List (FileId × FileRow)) : Prop :=
  ∃ passed, rows = passed ++ rest ∧ ∀ p ∈ passed, Clean b p.2

/-- What call `i` knows of the rows it has locked; only a sweep has any. -/
def SweepLoc (i : ℕ) (d : Db) : Pc → Prop
  | .sweepAbort rest rows => Batch i d rows ∧ CleanUpTo d.bucket rest rows
  | .sweepObject row rest rows => Batch i d rows ∧ Aborted d.bucket row ∧
      ∃ id, CleanUpTo d.bucket ((id, row) :: rest) rows
  | .sweepDelete rows => Batch i d rows ∧ CleanUpTo d.bucket [] rows
  | .sweepCommit _ => ∀ id, (d.files id).Held i → (d.files id).lock = some (i, none) ∧
      ∃ row, (d.files id).base = some row ∧ row.status = .pending ∧ Clean d.bucket row
  | _ => ∀ id, ¬ (d.files id).Held i

/-- A call that is no sweep at work holds no row. -/
theorem SweepLoc.of_quiet (hp : ¬ pc.Sweeps) (hh : ∀ id, ¬ (d.files id).Held i) :
    SweepLoc i d pc := by
  cases pc with
  | sweepAbort _ _ | sweepObject _ _ _ | sweepDelete _ | sweepCommit _ => exact absurd trivial hp
  | _ => exact hh

/-- A sweep that has rows in hand has them locked. -/
theorem SweepLoc.batch {p : FileId × FileRow} (hk : SweepLoc i d pc) (hp : p ∈ pc.sweeping) :
    Batch i d pc.sweeping := by
  cases pc with
  | sweepAbort _ _ | sweepObject _ _ _ | sweepDelete _ => exact hk.1
  | _ => cases hp

theorem Batch.base {rows : List (FileId × FileRow)} {p : FileId × FileRow} (hb : Batch i d rows)
    (hv : Versions d) (hp : p ∈ rows) : (d.files p.1).base = some p.2 :=
  hv.2 p.1 i p.2 (hb.locked p hp)

/-- What is locked is a PENDING row. -/
theorem SweepLoc.base (hk : SweepLoc i d pc) (hv : Versions d) (hh : (d.files id).Held i) :
    ∃ row, (d.files id).base = some row ∧ row.status = .pending := by
  have hbatch : ∀ {rows}, Batch i d rows →
      ∃ row, (d.files id).base = some row ∧ row.status = .pending := by
    intro rows hb
    obtain ⟨row, hp⟩ := hb.held id hh
    exact ⟨row, hb.base hv hp, hb.pending _ hp⟩
  cases pc with
  | sweepAbort _ _ | sweepObject _ _ _ | sweepDelete _ => exact hbatch hk.1
  | sweepCommit _ =>
      obtain ⟨-, row, hb, hp, -⟩ := hk id hh
      exact ⟨row, hb, hp⟩
  | _ => exact absurd hh (hk id)

/-- What was cleaned stays clean if every clean row stays so. -/
theorem CleanUpTo.mono {rest rows : List (FileId × FileRow)} (hc : CleanUpTo b rest rows)
    (hclean : ∀ p ∈ rows, Clean b p.2 → Clean b' p.2) : CleanUpTo b' rest rows := by
  obtain ⟨passed, rfl, hpassed⟩ := hc
  refine ⟨passed, rfl, ?_⟩
  intro p hp
  exact hclean p (List.mem_append_left _ hp) (hpassed p hp)

/-- The others leave the locked rows alone, and clean what is clean. -/
theorem SweepLoc.kept (hk : SweepLoc j d pc) (hv : Versions d)
    (hkept : Table.Kept j d.files d'.files)
    (hclean : ∀ id row, (d.files id).Held j → (d.files id).base = some row →
      KeepsClean d.bucket d'.bucket row) : SweepLoc j d' pc := by
  have hrow : ∀ {rows p}, Batch j d rows → p ∈ rows → KeepsClean d.bucket d'.bucket p.2 := by
    intro rows p hb hp
    exact hclean p.1 p.2 ⟨_, hb.locked p hp⟩ (hb.base hv hp)
  have hbatch : ∀ {rows}, Batch j d rows → Batch j d' rows := by
    intro rows hb
    refine ⟨?_, ?_, hb.pending, fun p hp => (hrow hb hp).recorded (hb.recorded p hp)⟩
    · intro id hh
      exact hb.held id (hkept.held_iff.mp hh)
    · intro p hp
      rw [hkept.held p.1 ⟨_, hb.locked p hp⟩]
      exact hb.locked p hp
  cases pc with
  | sweepAbort rest rows => exact ⟨hbatch hk.1, hk.2.mono fun p hp => (hrow hk.1 hp).clean⟩
  | sweepObject row rest rows =>
      obtain ⟨hb, habort, id, hc⟩ := hk
      have hmem : (id, row) ∈ rows := by
        obtain ⟨passed, rfl, -⟩ := hc
        exact List.mem_append_right _ List.mem_cons_self
      exact ⟨hbatch hb, (hrow hb hmem).aborted habort, id,
        hc.mono fun p hp => (hrow hb hp).clean⟩
  | sweepDelete rows => exact ⟨hbatch hk.1, hk.2.mono fun p hp => (hrow hk.1 hp).clean⟩
  | sweepCommit n =>
      intro id hh
      have hh' := hkept.held_iff.mp hh
      obtain ⟨hl, row, hb, hp, hc⟩ := hk id hh'
      rw [hkept.held id hh']
      exact ⟨hl, row, hb, hp, (hclean id row hh' hb).clean hc⟩
  | _ => exact fun id => hkept.other id (hk id)

/-! ## One statement -/

/-- A plain write locks nothing. -/
theorem not_held_setFile (k : FileId) (hh : ¬ (d.files k).Held j) :
    ¬ ((setFile id row d).files k).Held j := by
  by_cases hk : k = id
  · subst hk
    rw [setFile_self]
    exact Slot.not_held_settled
  · rw [setFile_ne hk]
    exact hh

/-- A plain write of a row that a call does not hold leaves it its rows. -/
theorem kept_setFile (hh : ¬ (d.files id).Held j) :
    Table.Kept j d.files (setFile id row d).files where
  held k hk := by
    have hne : k ≠ id := by
      rintro rfl
      exact hh hk
    exact setFile_ne hne
  other k hk := not_held_setFile k hk

/-- A statement of another call leaves the rows of a sweep locked as they are. -/
theorem Effect.kept {pcj : Pc} (he : Effect i d d' pc) (hv : Versions d)
    (hi : SweepLoc i d pc) (hj : SweepLoc j d pcj) (hne : j ≠ i) :
    Table.Kept j d.files d'.files := by
  -- a row that call `i` can write is not locked by `j`
  have hfree : ∀ {id}, (d.files id).Free i → ¬ (d.files id).Held j :=
    fun hf hh => hh.not_free hne hf
  -- a statement writes rows that are free for its call, so none that another one holds
  cases he with
  | same hf _ =>
      rw [hf]
      exact Table.Kept.refl j d.files
  | insert hd =>
      subst hd
      refine kept_setFile ?_
      intro hh
      obtain ⟨row, hb, -⟩ := hj.base hv hh
      exact Nat.lt_irrefl _ (hv.lt hb)
  | setUpload hf _ hd => exact hd ▸ kept_setFile (hfree hf)
  | complete hf _ _ hd => exact hd ▸ kept_setFile (hfree hf)
  | @lock hours at₀ ids hsel hd =>
      subst hd
      have hids : ∀ id ∈ ids, ¬ (d.files id).Held j := by
        intro id hid
        have horphan := hsel.2.2.1 id hid
        unfold orphan at horphan
        rw [Bool.and_eq_true] at horphan
        exact hfree (of_decide_eq_true horphan.1)
      constructor
      · intro k hk
        exact if_neg fun hin => hids k hin hk
      · intro k hk
        change ¬ Slot.Held j (if k ∈ ids then (d.files k).put i ((d.files k).view i) else d.files k)
        split
        · rw [Slot.held_put_iff]
          exact hne.symm
        · exact hk
  | @delete rows hd =>
      subst hd
      refine (Table.Own.deleteAll ?_).kept j hne
      intro id hid
      obtain ⟨p, hp, rfl⟩ := List.mem_map.mp hid
      exact Slot.Held.free ⟨_, hi.1.locked p hp⟩
  | commit hd => exact hd ▸ Table.Kept.commit hne.symm
  | rollback hd => exact hd ▸ Table.Kept.rollback hne.symm

/-- Only the SELECT makes a call a sweep at work. -/
theorem Next.sweeps (hn : Next h d d' pc pc') : pc.SweepsOn pc' := by
  cases hn with
  | plain _ hs => exact hs
  | @checks viewer input key =>
      rcases intentChecks_cases viewer input key with ⟨err, heq⟩ | ⟨ext, plan, heq, -⟩
      · rw [heq]
        exact False.elim
      · rw [heq]
        exact False.elim
  | load _ hp _ => exact fun hs => absurd hs hp.not_sweeps
  | pass _ hp _ => exact fun hs => absurd hs hp.not_sweeps
  | list _ _ | head _ _ _ | read _ _ _ => exact False.elim

/-- The loop goes on with the next row, or to the DELETE. -/
theorem sweepNext_loc {rest rows : List (FileId × FileRow)} (hb : Batch i d rows)
    (hc : CleanUpTo d.bucket rest rows) : SweepLoc i d (sweepNext rest rows) := by
  have hrest : ∀ p ∈ rest, p ∈ rows := by
    obtain ⟨passed, rfl, -⟩ := hc
    exact fun p hp => List.mem_append_right _ hp
  unfold sweepNext
  split
  · split
    · next hempty =>
        intro id hh
        obtain ⟨row, hp⟩ := hb.held id hh
        rw [List.isEmpty_iff.mp hempty] at hp
        cases hp
    · exact ⟨hb, hc⟩
  · next id row rest' =>
      split
      · exact ⟨hb, hc⟩
      · next hnone =>
          have hrec := hb.recorded _ (hrest _ List.mem_cons_self)
          exact ⟨hb, hrec.aborted (Option.not_isSome_iff_eq_none.mp hnone), id, hc⟩

/-- The rows the SELECT has locked. -/
theorem select_batch {hours at₀ : ℕ} {ids : List FileId} (hsel : Selected i at₀ hours d ids)
    (hv : Versions d) (hh : ∀ id, ¬ (d.files id).Held i)
    (hrec : ∀ id ∈ ids, ∀ row, (d.files id).base = some row → Recorded d.bucket row) :
    Batch i (lockAll i ids d) (rowsOf i d ids) := by
  have horphan : ∀ id ∈ ids, ∃ row, (d.files id).view i = some row ∧ row.status = .pending := by
    intro id hid
    have ho := hsel.2.2.1 id hid
    unfold orphan at ho
    rw [Bool.and_eq_true, Option.any_eq_true] at ho
    obtain ⟨-, row, hview, hrow⟩ := ho
    rw [Bool.and_eq_true] at hrow
    exact ⟨row, hview, by simpa using hrow.1⟩
  have hrows : ∀ p, p ∈ rowsOf i d ids ↔ p.1 ∈ ids ∧ (d.files p.1).view i = some p.2 := by
    intro p
    unfold rowsOf
    rw [List.mem_filterMap]
    constructor
    · rintro ⟨id, hid, hp⟩
      rw [Option.map_eq_some_iff] at hp
      obtain ⟨row, hview, rfl⟩ := hp
      exact ⟨hid, hview⟩
    · rintro ⟨hid, hview⟩
      exact ⟨p.1, hid, by rw [hview]; rfl⟩
  -- exactly the rows of the batch are locked, each with the version it had
  have hslot : ∀ id, (lockAll i ids d).files id =
      if id ∈ ids then (d.files id).put i ((d.files id).view i) else d.files id := fun _ => rfl
  refine ⟨?_, ?_, ?_, ?_⟩
  · intro id hheld
    rw [hslot] at hheld
    split at hheld
    · next hin =>
        obtain ⟨row, hview, -⟩ := horphan id hin
        exact ⟨row, (hrows (id, row)).mpr ⟨hin, hview⟩⟩
    · exact absurd hheld (hh id)
  · intro p hp
    obtain ⟨hin, hview⟩ := (hrows p).mp hp
    rw [hslot, if_pos hin, Slot.put_lock, hview]
  · intro p hp
    obtain ⟨hin, hview⟩ := (hrows p).mp hp
    obtain ⟨row, hview', hpend⟩ := horphan p.1 hin
    rw [hview] at hview'
    cases hview'
    exact hpend
  · intro p hp
    obtain ⟨hin, hview⟩ := (hrows p).mp hp
    exact hrec p.1 hin p.2 (hv.view hview)

/-- A sweep keeps what it knows. -/
theorem Does.sweepLoc (hd : Does h i d pc a d' pc') (hf : FiledDb G d) (hcall : FiledCall G i d pc)
    (hok : a = .keyError → ¬ pc.Sweeps)
    (hrec : ∀ ids, a = .select ids → ∀ id ∈ ids, ∀ row, (d.files id).base = some row →
      Recorded d.bucket row) (hk : SweepLoc i d pc) : SweepLoc i d' pc' := by
  have hv := hf.rows.versions
  have hstored := hd.stored
  -- a call that is no sweep at work locks nothing
  have quiet : ¬ pc.Sweeps → (∀ hours at₀, pc ≠ .sweepSelect hours at₀) →
      (∀ id, ¬ (d'.files id).Held i) → SweepLoc i d' pc' := by
    intro hp hne hh
    refine SweepLoc.of_quiet ?_ hh
    intro hs
    rcases hd.next.sweeps hs with hs | ⟨hours, at₀, heq⟩
    · exact hp hs
    · exact hne hours at₀ heq
  cases hd with
  | select hsel =>
      have hb := select_batch hsel hv hk (hrec _ rfl)
      exact sweepNext_loc hb ⟨[], rfl, fun p hp => absurd hp List.not_mem_nil⟩
  | @sweepAbort id row u rest rows hu =>
      obtain ⟨hb, hc⟩ := hk
      have hmem : (id, row) ∈ rows := by
        obtain ⟨passed, rfl, -⟩ := hc
        exact List.mem_append_right _ List.mem_cons_self
      have hkeeps : ∀ p ∈ rows, KeepsClean d.bucket (d.bucket.abortMultipart row.key u) p.2 :=
        fun p hp => hstored.keepsClean hf hcall (hb.base hv hp) nofun
      refine ⟨⟨hb.held, hb.locked, hb.pending, fun p hp => (hkeeps p hp).recorded
        (hb.recorded p hp)⟩, ?_, id, hc.mono fun p hp => (hkeeps p hp).clean⟩
      -- the upload on record is the only one that can be open
      intro u'
      by_cases hu' : u' = u
      · rw [hu']
        exact abortMultipart_closed row.key u d.bucket
      · refine openUpload_none_of ?_ ((abortMultipart_shrinks row.key u d.bucket).2 u')
        by_contra hopen
        have hsome := hb.recorded _ hmem u' hopen
        rw [hu] at hsome
        exact hu' (Option.some.inj hsome).symm
  | @sweepObject row rest rows =>
      obtain ⟨hb, habort, id, hc⟩ := hk
      have hkeeps : ∀ p ∈ rows, KeepsClean d.bucket (d.bucket.deleteObject row.key) p.2 :=
        fun p hp => hstored.keepsClean hf hcall (hb.base hv hp) nofun
      refine sweepNext_loc ⟨hb.held, hb.locked, hb.pending, fun p hp => (hkeeps p hp).recorded
        (hb.recorded p hp)⟩ ?_
      obtain ⟨passed, hrows, hpassed⟩ := hc.mono fun p hp => (hkeeps p hp).clean
      -- one more row is clean
      refine ⟨passed ++ [(id, row)], by rw [hrows, List.append_assoc]; rfl, ?_⟩
      intro p hp
      rcases List.mem_append.mp hp with hp | hp
      · exact hpassed p hp
      · rw [List.mem_singleton.mp hp]
        exact ⟨Function.update_self .., habort⟩
  | sweepObjectError => exact absurd trivial (hok rfl)
  -- all of the batch is clean, so what is deleted is
  | @sweepDelete rows =>
      obtain ⟨hb, passed, hrows, hpassed⟩ := hk
      rw [List.append_nil] at hrows
      subst hrows
      intro id hh
      have hslot : (d.files.deleteAll i (rows.map Prod.fst)) id =
          if id ∈ rows.map Prod.fst then (d.files id).put i none else d.files id := rfl
      have hin : id ∈ rows.map Prod.fst := by
        by_contra hn
        change Slot.Held i ((d.files.deleteAll i (rows.map Prod.fst)) id) at hh
        rw [hslot, if_neg hn] at hh
        obtain ⟨row, hp⟩ := hb.held id hh
        exact hn (List.mem_map_of_mem hp)
      obtain ⟨p, hp, rfl⟩ := List.mem_map.mp hin
      refine ⟨?_, p.2, ?_, hb.pending p hp, hpassed p hp⟩
      · change Slot.lock ((d.files.deleteAll i (rows.map Prod.fst)) p.1) = _
        rw [hslot, if_pos hin]
        rfl
      · change Slot.base ((d.files.deleteAll i (rows.map Prod.fst)) p.1) = _
        rw [hslot, if_pos hin]
        exact hb.base hv hp
  | sweepCommit => exact fun id => Slot.not_held_commit
  | abort _ => exact fun id => Slot.not_held_rollback
  | insert hrow _ =>
      exact quiet (fun hs => hs) nofun fun k => not_held_setFile k (hk k)
  | setUpload _ _ => exact quiet (fun hs => hs) nofun fun k => not_held_setFile k (hk k)
  | update _ _ _ => exact quiet (fun hs => hs) nofun fun k => not_held_setFile k (hk k)
  | @sign id row =>
      refine quiet (fun hs => hs) nofun ?_
      unfold signFor
      split
      · exact hk
      · split <;> exact hk
  | @complete id row u parts =>
      refine quiet (fun hs => hs) nofun ?_
      unfold Files.commitComplete
      split <;> exact hk
  | _ => exact quiet (fun hs => hs) nofun hk

/-! ## Every run -/

/-- The condition on the steps of a run. -/
def Cleanly (s : St) (l : Label) : Prop :=
  NoUploads s l ∧ NoKeyError s l ∧ UploadsRecorded s l

/-- Every step that keeps storage clean keeps what every sweep knows of its batch. -/
theorem sweepLoc_step {s t : St} {l : Label} (hs : (machine h).Reachable s) (hok : Cleanly s l)
    (hn : (machine h).next s l = some t) (hk : ∀ i, SweepLoc i s.shared (s.proc i)) :
    ∀ i, SweepLoc i t.shared (t.proc i) := by
  obtain ⟨G, hdb, hcalls⟩ := filed_reachable hs
  have hv := hdb.rows.versions
  cases l with
  | call i a =>
      obtain ⟨d, p, hst, rfl⟩ := Procs.next_call hn
      have hd : Does h i s.shared (s.proc i) a d p := stmt_does hst
      refine Procs.forall_update (Q := fun j => SweepLoc j d) ?_ ?_
      -- the call that moves, then the others
      · refine hd.sweepLoc hdb (hcalls i) ?_ ?_ (hk i)
        · rintro rfl
          exact hok.2.1 i rfl
        · rintro ids rfl
          exact hok.2.2.selected i ids rfl
      · intro j hj
        refine (hk j).kept hv (hd.effect.kept hv (hk i) (hk j) hj) ?_
        intro id row hh hb
        refine hd.stored.keepsClean hdb (hcalls i) hb ?_
        intro id' row' hpc
        rw [hpc] at hd
        cases hd with
        | create =>
            right
            rintro rfl
            exact hok.2.2.opened i id' row' rfl hpc j hh
        | abort _ => exact Or.inl rfl
  | env e =>
      obtain ⟨d, he, rfl⟩ := Procs.next_env hn
      have he' : env h s.shared e = some d := he
      intro j
      refine (hk j).kept hv ?_ ?_
      · rw [(env_files he').1]
        exact Table.Kept.refl j s.shared.files
      · intro id row hh hb
        refine env_keepsClean he' ?_
        intro url body heq
        exact hok.1 url body (by rw [heq]) j id row hh hb

/-- Along a run that keeps storage clean every sweep knows its batch. -/
theorem sweepLoc_run {s₀ s : St} {as : List Label} (hinit : (machine h).Init s₀)
    (hr : (machine h).Run Cleanly s₀ as s) : ∀ i, SweepLoc i s.shared (s.proc i) := by
  refine hr.invariant_of (P := fun s => ∀ i, SweepLoc i s.shared (s.proc i)) hinit ?_ ?_
  · intro s l t hs hok hn hk
    exact sweepLoc_step hs hok hn hk
  · intro i
    rw [hinit.2 i]
    intro id
    rw [hinit.1.1 id]
    exact Slot.not_held_settled

/-- A committed row goes by the COMMIT of a sweep that has deleted it. -/
theorem Effect.gone (he : Effect i d d' pc) (hk : SweepLoc i d pc) (hv : Versions d)
    (hb : (d.files id).base = some row) (hgone : (d'.files id).base = none) :
    (∃ count, pc = .sweepCommit count) ∧ row.status = .pending ∧ Clean d.bucket row := by
  have absent : ∀ {P : Prop} {r : FileRow}, (d'.files id).base = some r → P := by
    intro P r hr
    rw [hgone] at hr
    cases hr
  cases he with
  | same hf _ => exact absent (by rw [hf]; exact hb)
  | insert hd =>
      subst hd
      have hne : id ≠ d.nextFile := Nat.ne_of_lt (hv.lt hb)
      exact absent (by rw [insertRow_ne hne]; exact hb)
  | @setUpload k row' r u _ _ hd =>
      subst hd
      by_cases hid : id = k
      · subst hid
        exact absent (by rw [setFile_self, Slot.settled_base])
      · exact absent (by rw [setFile_ne hid]; exact hb)
  | @complete k row' r head magic _ _ _ hd =>
      subst hd
      by_cases hid : id = k
      · subst hid
        exact absent (by rw [setFile_self, Slot.settled_base])
      · exact absent (by rw [setFile_ne hid]; exact hb)
  | @lock hours at₀ ids _ hd =>
      subst hd
      refine absent (r := row) ?_
      change Slot.base (if id ∈ ids then _ else _) = _
      split <;> exact hb
  | @delete rows hd =>
      subst hd
      refine absent (r := row) ?_
      change Slot.base (if id ∈ rows.map Prod.fst then _ else _) = _
      split <;> exact hb
  -- the only statement that takes a committed row away
  | @commit count hd =>
      subst hd
      change ((d.files id).commit i).base = none at hgone
      by_cases hh : (d.files id).Held i
      · obtain ⟨-, r, hb', hp, hc⟩ := hk id hh
        rw [hb] at hb'
        cases hb'
        exact ⟨⟨count, rfl⟩, hp, hc⟩
      · rw [Slot.commit_of_not_held hh, hb] at hgone
        cases hgone
  | rollback hd =>
      subst hd
      exact absent (Slot.rollback_base.trans hb)

/-- A row that is gone stays gone: ids are drawn once. -/
theorem Effect.once (he : Effect i d d' pc) (hv : Versions d) (hid : id < d.nextFile)
    (hb : (d.files id).base = none) : (d'.files id).base = none := by
  cases he.rowChange hv id with
  | keep heq => rw [heq, hb]
  | gone heq => exact heq
  | insert heq _ _ => exact absurd heq (Nat.ne_of_lt hid)
  | setUpload hb' _ =>
      rw [hb] at hb'
      cases hb'
  | complete hb' _ _ =>
      rw [hb] at hb'
      cases hb'

/-- A row given back is one the next sweep selects, unless others as old fill the batch. -/
theorem settled_selected (hv : Versions d) (hslot : d.files id = Slot.settled (some row))
    (hp : row.status = .pending) {hours at₀ : ℕ} {ids : List FileId}
    (hold : row.createdAt + secs (hours * 3600) < at₀) (hsel : Selected j at₀ hours d ids) :
    id ∈ ids ∨ ids.length = batch ∧ ∀ k ∈ ids, createdAt j d k ≤ row.createdAt := by
  have hlt : id < d.nextFile := hv.lt (by rw [hslot]; rfl)
  have horphan : orphan j at₀ hours d id = true := by
    unfold orphan
    rw [hslot]
    have hfree : (Slot.settled (some row) : Slot ℕ FileRow).Free j := by
      intro k v hk
      cases hk
    simp [hfree, hp, hold]
  have hcreated : createdAt j d id = row.createdAt := by
    unfold createdAt
    rw [hslot]
    rfl
  rw [← hcreated]
  exact hsel.2.2.2.2 id (List.mem_range.mpr hlt) horphan

/-- A sweep changes no COMPLETED row. -/
theorem Effect.completed (he : Effect i d d' pc) (hv : Versions d) (hk : SweepLoc i d pc)
    (hs : pc.Sweeps) (hb : (d.files id).base = some row) (hc : row.status = .completed) :
    (d'.files id).base = some row := by
  cases he.rowChange hv id with
  | keep heq => exact heq.trans hb
  | gone heq =>
      obtain ⟨-, hp, -⟩ := he.gone hk hv hb heq
      rw [hc] at hp
      cases hp
  | insert _ _ _ => exact hs.elim
  | setUpload _ _ => exact hs.elim
  | complete _ _ _ => exact hs.elim

/-- A sweep deletes no object of a COMPLETED row: it would be under the key of a row that is
PENDING. -/
theorem Stored.completed (hst : Stored d d' pc) (hf : FiledDb G d) (hk : SweepLoc i d pc)
    (hs : pc.Sweeps) (hb : (d.files id).base = some row) (hc : row.status = .completed) :
    d'.bucket.objects row.key = d.bucket.objects row.key := by
  cases hst with
  | same heq => rw [heq]
  | create _ => exact hs.elim
  | complete _ _ => exact hs.elim
  | @delete _ key hdel heq =>
      have hne : row.key ≠ key := by
        rintro rfl
        cases pc with
        | sweepObject row' rest rows =>
            obtain ⟨hbatch, -, id', passed, hrows, -⟩ := hk
            have hmem : (id', row') ∈ rows := by
              rw [hrows]
              exact List.mem_append_right _ List.mem_cons_self
            have hb' := hbatch.base hf.rows.versions hmem
            have hid := hf.rows.sameId (hf.rows.rows id row hb) (hf.rows.rows id' row' hb') hdel.symm
            subst hid
            rw [hb] at hb'
            cases hb'
            have hp := hbatch.pending _ hmem
            rw [hc] at hp
            cases hp
        | _ => first | exact hs.elim | exact hdel.elim
      rw [heq]
      exact Function.update_of_ne hne ..
  | abort heq =>
      rw [heq, abortMultipart_objects]

/-- In a run without a swallowed per-key error, in which no sweep selects a row with an open upload
that the row does not record, and no client uploads to a row that is being swept, every step keeps
the promise of the sweep. -/
theorem orphans_clean (h : Hashes) (s₀ s t : St) (as : List Label) (l : Label)
    (hinit : (machine h).Init s₀) (hr : (machine h).Run Cleanly s₀ as s) (hok : Cleanly s l)
    (hn : (machine h).next s l = some t) : SweepSafe s l t := by
  have hreach : (machine h).Reachable s := ⟨s₀, as, hinit, hr.always⟩
  obtain ⟨G, hdb, hcalls⟩ := filed_reachable hreach
  have hv := hdb.rows.versions
  have hk := sweepLoc_run hinit hr
  have hk' := sweepLoc_step hreach hok hn hk
  -- a row in two batches would be locked by two calls
  have halone : ∀ i j p q, p ∈ (t.proc i).sweeping → q ∈ (t.proc j).sweeping →
      p.1 = q.1 → i = j := by
    intro i j p q hp hq heq
    have hlp := ((hk' i).batch hp).locked p hp
    have hlq := ((hk' j).batch hq).locked q hq
    rw [heq, hlq] at hlp
    exact (congrArg Prod.fst (Option.some.inj hlp)).symm
  cases l with
  | env e =>
      obtain ⟨d, he, rfl⟩ := Procs.next_env hn
      have hfiles := (env_files he).1
      refine ⟨?_, ?_, halone, ?_, ?_⟩
      · intro id row hb hgone
        rw [hfiles, hb] at hgone
        cases hgone
      · intro i id row hl
        cases hl
      · intro id _ hb
        rw [hfiles]
        exact hb
      · intro i a id row hl
        cases hl
  | call i a =>
      obtain ⟨d, p, hst, rfl⟩ := Procs.next_call hn
      have hd : Does h i s.shared (s.proc i) a d p := stmt_does hst
      have he := hd.effect
      have hv' := he.versions hv
      refine ⟨?_, ?_, halone, fun id hid hb => he.once hv hid hb, ?_⟩
      · intro id row hb hgone
        obtain ⟨⟨count, hpc⟩, hp, hc⟩ := he.gone (hk i) hv hb hgone
        rw [hpc] at hd
        cases hd with
        | sweepCommit => exact ⟨hp, hc, i, count, rfl, hpc⟩
        | abort _ =>
            change ((s.shared.files id).rollback i).base = none at hgone
            rw [Slot.rollback_base, hb] at hgone
            cases hgone
      · intro i' id row hl hh hb
        cases hl
        have hslot : d.files id = Slot.settled (some row) := by
          rw [hd.aborted]
          change (s.shared.files id).rollback i = _
          rw [Slot.rollback_of_held hh, hb]
        obtain ⟨r, hb', hp⟩ := (hk i).base hv hh
        rw [hb] at hb'
        cases hb'
        refine ⟨hslot, hp, ?_⟩
        intro j hours at₀ ids hold hsel
        exact settled_selected hv' hslot hp hold hsel
      · intro i' a' id row hl hsweeps hb hc
        cases hl
        exact ⟨he.completed hv (hk i) hsweeps hb hc,
          hd.stored.completed hdb (hk i) hsweeps hb hc⟩

/-! ## A picture that nobody committed -/

/-- A step that uploads nothing, reports no key, selects nothing and opens no upload. -/
def calm (s : St) : Label → Bool
  | .env (.upload _ _) | .call _ .keyError | .call _ (.select _) => false
  | .call i .run => match s.proc i with
      | .intentCreate _ _ => false
      | _ => true
  | _ => true

/-- What the concrete run checks is the condition of the theorem. -/
theorem calm_cleanly (s : St) (l : Label) (hc : calm s l = true) : Cleanly s l := by
  refine ⟨?_, ?_, ?_, ?_⟩
  · rintro url body rfl
    cases hc
  · rintro i rfl
    cases hc
  · rintro i ids rfl
    cases hc
  · rintro i id row rfl hpc
    simp only [calm, hpc] at hc
    cases hc

/-- With nothing locked, only a SELECT and a reported key can go wrong. -/
theorem unlocked_cleanly {s : St} {l : Label} (hfree : ∀ i id, ¬ (s.shared.files id).Held i)
    (hkey : ∀ i, l ≠ .call i .keyError) (hsel : ∀ i ids, l ≠ .call i (.select ids)) :
    Cleanly s l where
  left _ _ _ i id _ hh := absurd hh (hfree i id)
  right.left i hl := absurd hl (hkey i)
  right.right.selected i ids hl := absurd hl (hsel i ids)
  right.right.opened _ _ _ _ _ j := hfree j _

/-- With no upload open a SELECT picks rows whose uploads are all recorded. -/
theorem select_cleanly {s : St} {i : ℕ} {ids : List FileId}
    (hclosed : ∀ u, s.shared.bucket.uploads u = none) : Cleanly s (.call i (.select ids)) := by
  refine ⟨nofun, nofun, ?_, nofun⟩
  intro _ _ _ _ _ row _ u hopen
  refine absurd ?_ hopen
  unfold Bucket.openUpload
  rw [hclosed u]
  rfl

/-- Two days later a sweep begins. -/
def twoDaysLater : List Label :=
  [.env (.tick (secs (48 * 3600))), .call 3 (.sweepOrphans 24)]

/-- The intent, the upload and the SELECT of a sweep, with nothing amiss. -/
theorem png_swept : ∃ s row as, (machine plainHashes).Run Cleanly start as s ∧
    s.proc 3 = .sweepObject row [] [(1, row)] ∧ (s.shared.bucket.objects row.key).isSome ∧
    s.shared.files 1 = ⟨some row, some (3, some row)⟩ := by
  have hrun : ∃ s₁ s₂ s₃ s row r, (machine plainHashes).exec calm start pngIntent = some s₁ ∧
      (machine plainHashes).next s₁ (.env (.upload pngUrl pngHead)) = some s₂ ∧
      (machine plainHashes).exec calm s₂ twoDaysLater = some s₃ ∧
      (machine plainHashes).next s₃ (.call 3 (.select [1])) = some s ∧
      s₁.shared.files = (setFile 1 r emptyDb).files ∧ s₃.shared.bucket.uploads = (fun _ => none) ∧
      s.proc 3 = .sweepObject row [] [(1, row)] ∧ (s.shared.bucket.objects row.key).isSome ∧
      s.shared.files 1 = ⟨some row, some (3, some row)⟩ :=
    ⟨_, _, _, _, _, _, rfl, rfl, rfl, rfl, rfl, rfl, rfl, rfl, rfl⟩
  obtain ⟨s₁, s₂, s₃, s, row, r, h₁, h₂, h₃, h₄, hfiles, hclosed, hpc, hobj, hslot⟩ := hrun
  -- nothing is locked yet when the client uploads
  have hup : Cleanly s₁ (.env (.upload pngUrl pngHead)) := by
    refine unlocked_cleanly ?_ nofun nofun
    intro i id
    rw [hfiles]
    exact not_held_setFile id Slot.not_held_settled
  have hsel : Cleanly s₃ (.call 3 (.select [1])) := select_cleanly fun u => by rw [hclosed]
  have hr := ((Machine.exec_run calm_cleanly h₁).trans (Machine.Run.single hup h₂)).trans
    (Machine.exec_run calm_cleanly h₃)
  exact ⟨s, row, _, hr.step hsel h₄, hpc, hobj, hslot⟩

/-- The row is deleted and the sweep commits. -/
theorem forgets {s : St} {row : FileRow} (hpc : s.proc 3 = .sweepDelete [(1, row)])
    (hslot : s.shared.files 1 = ⟨some row, some (3, some row)⟩) : ∃ s' t,
    (machine plainHashes).next s (.call 3 .run) = some s' ∧
    (machine plainHashes).next s' (.call 3 .run) = some t ∧ s'.proc 3 = .sweepCommit 1 ∧
    (s'.shared.files 1).base = some row ∧ (t.shared.files 1).base = none ∧
    t.shared.bucket = s.shared.bucket := by
  have h₁ : stmt plainHashes 3 s.shared (s.proc 3) .run = some
      ({ s.shared with files := s.shared.files.deleteAll 3 [1] }, .sweepCommit 1) := by
    rw [hpc]
    rfl
  have h₂ := Procs.next_of_stmt (P := procs plainHashes) h₁
  let s' : St := ⟨{ s.shared with files := s.shared.files.deleteAll 3 [1] },
    Function.update s.proc 3 (.sweepCommit 1)⟩
  have h₃ : stmt plainHashes 3 s'.shared (s'.proc 3) .run = some
      ({ s.shared with files := (s.shared.files.deleteAll 3 [1]).commit 3 },
        Pc.returns (.swept 1)) := by
    change stmt plainHashes 3 s'.shared (Function.update s.proc 3 (.sweepCommit 1) 3) .run = _
    rw [Function.update_self]
    rfl
  have h₄ := Procs.next_of_stmt (P := procs plainHashes) (s := s') (i := 3) (a := .run) h₃
  refine ⟨_, _, h₂, h₄, ?_, ?_, ?_, rfl⟩
  · change Function.update s.proc 3 (.sweepCommit 1) 3 = _
    rw [Function.update_self]
  · change Slot.base (if 1 ∈ [1] then _ else _) = _
    rw [if_pos (List.mem_singleton.mpr rfl), hslot]
    rfl
  · change (Slot.commit 3 (if 1 ∈ [1] then _ else _)).base = _
    rw [if_pos (List.mem_singleton.mpr rfl), Slot.commit_base, Slot.view_put]

/-- An intent for an archive crashes with its upload opened and not recorded, and a sweep two days
later has nothing to abort. -/
def archiveAbandoned : List Label :=
  [.call 1 (.intent buyer ⟨"application/gzip", multipartThresholdBytes + 1⟩ none), .call 1 .run,
    .call 1 .run, .call 1 .abort] ++ twoDaysLater ++ [.call 3 (.select [1]), .call 3 .run]

/-- A step that uploads nothing and reports no key. -/
def noErrors : Label → Bool
  | .env (.upload _ _) | .call _ .keyError => false
  | _ => true

/-- What the concrete run checks is both conditions of the counterexample. -/
theorem noErrors_ok (s : St) (l : Label) (hc : noErrors l = true) :
    NoUploads s l ∧ NoKeyError s l := by
  constructor
  · rintro url body rfl
    cases hc
  · rintro i rfl
    cases hc

/-- Neither condition can be left out: DeleteObjects answers 200 with the key in its error list,
and the row goes while the object stays; or the open upload is not on record, and the row goes
while the upload stays. -/
theorem orphan_left :
    (¬ ∀ s₀ s t as l, (machine plainHashes).Init s₀ →
      (machine plainHashes).Run (fun s l => NoUploads s l ∧ UploadsRecorded s l) s₀ as s →
      NoUploads s l ∧ UploadsRecorded s l → (machine plainHashes).next s l = some t →
      SweepSafe s l t) ∧
    ¬ ∀ s₀ s t as l, (machine plainHashes).Init s₀ →
      (machine plainHashes).Run (fun s l => NoUploads s l ∧ NoKeyError s l) s₀ as s →
      NoUploads s l ∧ NoKeyError s l → (machine plainHashes).next s l = some t →
      SweepSafe s l t := by
  constructor
  · intro hall
    obtain ⟨s, row, as, hr, hpc, hobj, hslot⟩ := png_swept
    have h₁ : stmt plainHashes 3 s.shared (s.proc 3) .keyError =
        some (s.shared, .sweepDelete [(1, row)]) := by
      rw [hpc]
      rfl
    have h₂ := Procs.next_of_stmt (P := procs plainHashes) h₁
    obtain ⟨s', t, h₃, h₄, hpc', hb, hgone, hbucket⟩ :=
      forgets (s := ⟨s.shared, Function.update s.proc 3 (.sweepDelete [(1, row)])⟩)
        (by simp) hslot
    -- none of these steps is an upload, a SELECT or of an intent
    have hkey : NoUploads s (.call 3 .keyError) ∧ UploadsRecorded s (.call 3 .keyError) :=
      ⟨nofun, nofun, nofun⟩
    have hrun : ∀ {s : St}, (∀ id row, s.proc 3 ≠ .intentCreate id row) →
        NoUploads s (.call 3 .run) ∧ UploadsRecorded s (.call 3 .run) := by
      intro s hne
      refine ⟨nofun, nofun, ?_⟩
      rintro i id row hl hcreate
      cases hl
      exact absurd hcreate (hne id row)
    have hr₀ : (machine plainHashes).Run (fun s l => NoUploads s l ∧ UploadsRecorded s l) start
        as s := hr.mono fun _ _ hc => ⟨hc.1, hc.2.2⟩
    have hr' := (hr₀.step hkey h₂).step (hrun (by simp)) h₃
    have hsafe := hall start s' t _ _ (start_init plainHashes) hr' (hrun (by simp [hpc'])) h₄
    obtain ⟨-, ⟨hclean, -⟩, -⟩ := hsafe.clean 1 row hb hgone
    rw [hbucket] at hclean
    change s.shared.bucket.objects row.key = none at hclean
    rw [hclean] at hobj
    cases hobj
  · intro hall
    have hrun : ∃ s row, (machine plainHashes).exec (fun _ l => noErrors l) start
          archiveAbandoned = some s ∧
        s.proc 3 = .sweepDelete [(1, row)] ∧
        s.shared.files 1 = ⟨some row, some (3, some row)⟩ ∧
        (s.shared.bucket.openUpload row.key 0).isSome :=
      ⟨_, _, rfl, rfl, rfl, rfl⟩
    obtain ⟨s, row, hexec, hpc, hslot, hopen⟩ := hrun
    obtain ⟨s', t, h₃, h₄, -, hb, hgone, hbucket⟩ := forgets hpc hslot
    have hr := (Machine.exec_run noErrors_ok hexec).step (noErrors_ok s (.call 3 .run) rfl) h₃
    -- the upload that the intent did not come to record is still open
    have hsafe := hall start s' t _ _ (start_init plainHashes) hr
      (noErrors_ok s' (.call 3 .run) rfl) h₄
    obtain ⟨-, ⟨-, habort⟩, -⟩ := hsafe.clean 1 row hb hgone
    rw [hbucket] at habort
    rw [habort 0] at hopen
    cases hopen

/-- With the key deleted, the row goes after the object. -/
theorem orphans_clean_png : ∃ s t as, (machine plainHashes).Run Cleanly start as s ∧
    (machine plainHashes).next s (.call 3 .run) = some t ∧ (s.shared.files 1).base ≠ none ∧
    (t.shared.files 1).base = none ∧ SweepSafe s (.call 3 .run) t := by
  obtain ⟨s, row, as, hr, hpc, -, hslot⟩ := png_swept
  have h₁ : stmt plainHashes 3 s.shared (s.proc 3) .run = some
      ({ s.shared with bucket := s.shared.bucket.deleteObject row.key },
        .sweepDelete [(1, row)]) := by
    rw [hpc]
    rfl
  have h₂ := Procs.next_of_stmt (P := procs plainHashes) h₁
  obtain ⟨s', t, h₃, h₄, hpc', hb, hgone, -⟩ :=
    forgets (s := ⟨{ s.shared with bucket := s.shared.bucket.deleteObject row.key },
      Function.update s.proc 3 (.sweepDelete [(1, row)])⟩) (by simp) hslot
  have hcalm : ∀ {s : St}, (∀ id row, s.proc 3 ≠ .intentCreate id row) →
      Cleanly s (.call 3 .run) := by
    intro s hne
    refine calm_cleanly s _ ?_
    unfold calm
    split <;> simp_all
  have hr' := (hr.step (hcalm (by simp [hpc])) h₂).step (hcalm (by simp)) h₃
  refine ⟨s', t, _, hr', h₄, ?_, hgone,
    orphans_clean plainHashes start s' t _ _ (start_init plainHashes) hr'
      (hcalm (by simp [hpc'])) h₄⟩
  rw [hb]
  nofun

end Marketplace.Files
