import Marketplace.Files.Service

/-!
# Files.Steps — every statement, once

`Does` has a constructor for each statement or storage call, with what it read and how it
leaves the database and the call; `stmt_does` is the one case analysis over the service.
What a statement can do to the rows, to the bucket, to the URLs and to the row a call
carries is read off it.
-/

namespace Marketplace.Files

open Core Auth

/-- What one action of call `i` does. -/
inductive Does (h : Hashes) (i : ℕ) (d : Db) : Pc → Stmt → Db → Pc → Prop
  | intent {viewer : AccessClaims} {input : IntentInput} {key : Option String} :
      Does h i d .idle (.intent viewer input key) d (intentChecks viewer input key)
  | resume {viewer : AccessClaims} {id : FileId} :
      Does h i d .idle (.resume viewer id) d (.resumeFind viewer id)
  | begin {viewer : AccessClaims} {id : FileId} :
      Does h i d .idle (.commit viewer id) d (.commitFind viewer id)
  | sweep {hours : ℕ} : Does h i d .idle (.sweepOrphans hours) d (.sweepSelect hours d.now)
  | insert {viewer : AccessClaims} {input : IntentInput} {ext : String}
      {plan : Option PartPlan} {key : Option String} {row : FileRow} :
      row = newRow d viewer input ext plan key →
      (∀ k, key = some k → findByKey d viewer.sub k = none) →
      Does h i d (.intentInsert viewer input ext plan key) .run (insertRow d row)
        (if plan.isSome then .intentCreate d.nextFile row else .sign d.nextFile row)
  | conflict {viewer : AccessClaims} {input : IntentInput} {ext : String}
      {plan : Option PartPlan} {key : String} {id : FileId} :
      findByKey d viewer.sub key = some id →
      Does h i d (.intentInsert viewer input ext plan (some key)) .run d
        (.intentFind viewer input key)
  | find {viewer : AccessClaims} {input : IntentInput} {key : String} :
      Does h i d (.intentFind viewer input key) .run d (intentFind d viewer input key)
  | create {id : FileId} {row : FileRow} :
      Does h i d (.intentCreate id row) .run
        { d with bucket := (d.bucket.createMultipart row.key).1 }
        (.intentUpdate id row d.bucket.nextUpload)
  | setUpload {id : FileId} {row r : FileRow} {uploadId : UploadId} :
      (d.files id).Free i → (d.files id).base = some r →
      Does h i d (.intentUpdate id row uploadId) .run
        (setFile id { r with uploadId := some uploadId } d)
        (.sign id { row with uploadId := some uploadId })
  | setNothing {id : FileId} {row : FileRow} {uploadId : UploadId} :
      (d.files id).base = none →
      Does h i d (.intentUpdate id row uploadId) .run d
        (.sign id { row with uploadId := some uploadId })
  | sign {id : FileId} {row : FileRow} :
      Does h i d (.sign id row) .run (signFor h d id row).1 (signFor h d id row).2
  | resumeFind {viewer : AccessClaims} {id : FileId} :
      Does h i d (.resumeFind viewer id) .run d (resumeFind d viewer id)
  | commitFind {viewer : AccessClaims} {id : FileId} :
      Does h i d (.commitFind viewer id) .run d (commitFind d viewer id)
  | parts {id : FileId} {row : FileRow} {uploadId : UploadId} :
      Does h i d (.commitParts id row uploadId) .run d (commitParts h d id row uploadId)
  | gone {id : FileId} {row : FileRow} :
      Does h i d (.commitGone id row) .run d
        (if (d.bucket.head row.key).isSome then .commitHead id row else Pc.fail "NoSuchUpload")
  | complete {id : FileId} {row : FileRow} {uploadId : UploadId} {parts : List UploadedPart} :
      Does h i d (.commitComplete id row uploadId parts) .run
        (commitComplete h d id row uploadId parts).1 (commitComplete h d id row uploadId parts).2
  | head {id : FileId} {row : FileRow} :
      Does h i d (.commitHead id row) .run d (commitHead d id row)
  | delete {id : FileId} {row : FileRow} {err : Thrown} :
      Does h i d (.commitDelete id row err) .run
        { d with bucket := d.bucket.deleteObject row.key } (.done (.error err))
  | deleteError {id : FileId} {row : FileRow} {err : Thrown} :
      Does h i d (.commitDelete id row err) .keyError d (.done (.error err))
  | read {id : FileId} {row : FileRow} {head : ObjectHead} :
      Does h i d (.commitRead id row head) .run d (commitRead d id row head)
  | update {id : FileId} {row r : FileRow} {head : ObjectHead} {magic : Bytes} :
      (d.files id).Free i → (d.files id).base = some r → r.status = .pending →
      Does h i d (.commitUpdate id row head magic) .run
        (setFile id { r with status := .completed, etag := some head.etag } d)
        (Pc.returns (.committed id row.key head.size head.etag))
  | updateNothing {id : FileId} {row : FileRow} {head : ObjectHead} {magic : Bytes} :
      (∀ r, (d.files id).base = some r → r.status = .completed) →
      Does h i d (.commitUpdate id row head magic) .run d
        (Pc.returns (.committed id row.key head.size head.etag))
  | select {hours at₀ : ℕ} {ids : List FileId} : Selected i at₀ hours d ids →
      Does h i d (.sweepSelect hours at₀) (.select ids) (lockAll i ids d)
        (sweepNext (rowsOf i d ids) (rowsOf i d ids))
  | sweepAbort {id : FileId} {row : FileRow} {uploadId : UploadId}
      {rest rows : List (FileId × FileRow)} : row.uploadId = some uploadId →
      Does h i d (.sweepAbort ((id, row) :: rest) rows) .run
        { d with bucket := d.bucket.abortMultipart row.key uploadId }
        (.sweepObject row rest rows)
  | sweepObject {row : FileRow} {rest rows : List (FileId × FileRow)} :
      Does h i d (.sweepObject row rest rows) .run
        { d with bucket := d.bucket.deleteObject row.key } (sweepNext rest rows)
  | sweepObjectError {row : FileRow} {rest rows : List (FileId × FileRow)} :
      Does h i d (.sweepObject row rest rows) .keyError d (sweepNext rest rows)
  | sweepDelete {rows : List (FileId × FileRow)} :
      Does h i d (.sweepDelete rows) .run
        { d with files := d.files.deleteAll i (rows.map Prod.fst) } (.sweepCommit rows.length)
  | sweepCommit {count : ℕ} :
      Does h i d (.sweepCommit count) .run { d with files := d.files.commit i }
        (Pc.returns (.swept count))
  | abort {pc : Pc} : pc.Open →
      Does h i d pc .abort { d with files := d.files.rollback i } .aborted

/-- Whether this is an action of call `i`. -/
def isCall (i : ℕ) : Label → Bool
  | .call j _ => j == i
  | .env _ => false

variable {h : Hashes} {i : ℕ} {d d' : Db} {pc pc' : Pc} {a : Stmt}

theorem Does.ofPair {x : Db × Pc} (hx : some x = some (d', pc'))
    (hd : Does h i d pc a x.1 x.2) : Does h i d pc a d' pc' := by
  cases hx
  exact hd

/-- The INSERT of an intent writes its row or finds the key taken. -/
theorem intentInsert_does {viewer : AccessClaims} {input : IntentInput} {ext : String}
    {plan : Option PartPlan} {key : Option String}
    (hst : intentInsert i d viewer input ext plan key = some (d', pc')) :
    Does h i d (.intentInsert viewer input ext plan key) .run d' pc' := by
  cases key with
  | none =>
      cases hst
      exact .insert rfl (fun k hk => nomatch hk)
  | some k =>
      cases hfind : findByKey d viewer.sub k with
      | none =>
          simp only [intentInsert, hfind, Option.some.injEq, Prod.mk.injEq] at hst
          obtain ⟨rfl, rfl⟩ := hst
          refine .insert rfl ?_
          intro k' hk'
          cases hk'
          exact hfind
      | some id =>
          simp only [intentInsert, hfind] at hst
          split at hst
          · cases hst
            exact .conflict hfind
          · cases hst

/-- The UPDATE of an intent records the upload, or finds no row. -/
theorem intentUpdate_does {id : FileId} {row : FileRow} {u : UploadId} {d₁ : Db}
    (hst : updateFile i id (fun _ => true) (fun r => { r with uploadId := some u }) d = some d₁) :
    Does h i d (.intentUpdate id row u) .run d₁ (.sign id { row with uploadId := some u }) := by
  unfold updateFile at hst
  split at hst
  · next hfree =>
      split at hst
      · next hb =>
          cases hst
          exact .setNothing hb
      · next r hb =>
          cases hst
          exact .setUpload hfree hb
  · cases hst

/-- The UPDATE of a commit completes a PENDING row, or changes nothing. -/
theorem commitUpdate_does {id : FileId} {row : FileRow} {head : ObjectHead} {magic : Bytes}
    (hst : commitUpdate i d id row head = some (d', pc')) :
    Does h i d (.commitUpdate id row head magic) .run d' pc' := by
  unfold commitUpdate updateFile at hst
  split at hst
  · next hfree =>
      split at hst
      · next hb =>
          cases hst
          refine .updateNothing ?_
          intro r hr
          rw [hb] at hr
          cases hr
      · next r hb =>
          by_cases hp : r.status = .pending
          · simp only [hp, beq_self_eq_true, if_true, Option.map_some, Option.some.injEq,
              Prod.mk.injEq] at hst
            obtain ⟨rfl, rfl⟩ := hst
            exact .update hfree hb hp
          · have hf : (r.status == Status.pending) = false := by simpa using hp
            simp only [hf, Bool.false_eq_true, if_false, Option.map_some, Option.some.injEq,
              Prod.mk.injEq] at hst
            obtain ⟨rfl, rfl⟩ := hst
            refine .updateNothing ?_
            intro r' hr'
            rw [hb] at hr'
            cases hr'
            cases hs : r.status with
            | pending => exact absurd hs hp
            | completed => rfl
  · cases hst

/-- The one case analysis over the service. -/
theorem stmt_does (hst : stmt h i d pc a = some (d', pc')) : Does h i d pc a d' pc' := by
  by_cases hab : a = .abort
  · subst hab
    -- a crash is the same at every program point
    have hopen : pc.Open ∧ d' = { d with files := d.files.rollback i } ∧ pc' = .aborted := by
      cases pc <;> simp [stmt, Pc.Open] at hst <;> exact ⟨trivial, hst.1.symm, hst.2.symm⟩
    obtain ⟨hopen, rfl, rfl⟩ := hopen
    exact .abort hopen
  -- at each program point the labels it takes; all others are no step
  cases pc with
  | idle =>
      cases a with
      | intent _ _ _ =>
          cases hst
          exact .intent
      | resume _ _ =>
          cases hst
          exact .resume
      | commit _ _ =>
          cases hst
          exact .begin
      | sweepOrphans _ =>
          cases hst
          exact .sweep
      | abort => exact absurd rfl hab
      | _ => simp [stmt] at hst
  | sweepSelect hours at₀ =>
      cases a with
      | select ids =>
          simp only [stmt] at hst
          split at hst
          · next hsel =>
              cases hst
              exact .select hsel
          · cases hst
      | abort => exact absurd rfl hab
      | _ => simp [stmt] at hst
  | sweepAbort rest rows =>
      cases a with
      | run =>
          cases rest with
          | nil => simp [stmt] at hst
          | cons p rest =>
              obtain ⟨id, row⟩ := p
              simp only [stmt] at hst
              split at hst
              · next u hu =>
                  cases hst
                  exact .sweepAbort hu
              · cases hst
      | abort => exact absurd rfl hab
      | _ => simp [stmt] at hst
  | commitDelete id row err =>
      cases a with
      | run =>
          cases hst
          exact .delete
      | keyError =>
          cases hst
          exact .deleteError
      | abort => exact absurd rfl hab
      | _ => simp [stmt] at hst
  | sweepObject row rest rows =>
      cases a with
      | run =>
          cases hst
          exact .sweepObject
      | keyError =>
          cases hst
          exact .sweepObjectError
      | abort => exact absurd rfl hab
      | _ => simp [stmt] at hst
  | done _ | aborted => cases a <;> first | exact absurd rfl hab | simp [stmt] at hst
  | sign id row =>
      cases a with
      | run => exact Does.ofPair hst .sign
      | abort => exact absurd rfl hab
      | _ => simp [stmt] at hst
  | commitComplete id row u parts =>
      cases a with
      | run => exact Does.ofPair hst .complete
      | abort => exact absurd rfl hab
      | _ => simp [stmt] at hst
  | _ =>
      -- the other program points have one statement
      cases a with
      | run =>
          first
          | exact intentInsert_does hst
          | exact commitUpdate_does hst
          | (cases hst; constructor)
          | (simp only [stmt, Option.map_eq_some_iff] at hst
             obtain ⟨d₁, hu, hst⟩ := hst
             cases hst
             exact intentUpdate_does hu)
      | abort => exact absurd rfl hab
      | _ => simp [stmt] at hst

/-- The statement of a call that is known to be at `pc`. -/
theorem next_at {s : St} (hp : s.proc i = pc) (hst : stmt h i s.shared pc a = some (d', pc')) :
    (machine h).next s (.call i a) = some ⟨d', Function.update s.proc i pc'⟩ :=
  Procs.next_at (P := procs h) (a := a) hp hst

theorem next_of_env {s : St} {e : Env} (he : env h s.shared e = some d') :
    (machine h).next s (.env e) = some ⟨d', s.proc⟩ :=
  Procs.next_of_env (P := procs h) (e := e) he

theorem Does.aborted (hd : Does h i d pc .abort d' pc') :
    d' = { d with files := d.files.rollback i } := by
  cases hd
  rfl

/-! ## Where a statement leads -/

/-- The call has ended with an error. -/
def Pc.Refused (pc : Pc) : Prop := ∃ err, pc = .done (.error err)

/-- A row that passes the ownership check is the one that was read. -/
theorem checkOwned_ok {viewer : AccessClaims} {o : Option FileRow} {row : FileRow}
    (h : checkOwned viewer o = .ok row) : o = some row := by
  unfold checkOwned at h
  split at h
  · cases h
  · split at h
    · cases h
    · cases h
      rfl

/-- What `intent` and `resume` do with the row they have looked up. -/
def Found (d : Db) (pc : Pc) : Prop :=
  ∃ id row, (d.files id).base = some row ∧
    (row.status = .completed ∧ pc = Pc.returns (.finished id row.key) ∨ pc = .sign id row)

/-- A repeated intent is refused, or goes on with the row found. -/
theorem intentFind_cases (d : Db) (viewer : AccessClaims) (input : IntentInput) (key : String) :
    (intentFind d viewer input key).Refused ∨ Found d (intentFind d viewer input key) := by
  unfold intentFind
  split
  · exact Or.inl ⟨_, rfl⟩
  · next id _ =>
      split
      · exact Or.inl ⟨_, rfl⟩
      · next row hrow =>
          have hb := checkOwned_ok hrow
          split
          · exact Or.inl ⟨_, rfl⟩
          · split
            · next hc => exact Or.inr ⟨id, row, hb, Or.inl ⟨hc, rfl⟩⟩
            · split
              · exact Or.inl ⟨_, rfl⟩
              · exact Or.inr ⟨id, row, hb, Or.inr rfl⟩

/-- A resume is refused, or goes on with the row found. -/
theorem resumeFind_cases (d : Db) (viewer : AccessClaims) (id : FileId) :
    (resumeFind d viewer id).Refused ∨ Found d (resumeFind d viewer id) := by
  unfold resumeFind
  split
  · exact Or.inl ⟨_, rfl⟩
  · next row hrow =>
      have hb := checkOwned_ok hrow
      split
      · next hc => exact Or.inr ⟨id, row, hb, Or.inl ⟨hc, rfl⟩⟩
      · split
        · exact Or.inl ⟨_, rfl⟩
        · exact Or.inr ⟨id, row, hb, Or.inr rfl⟩

/-- Signing is refused, or answers with one URL, or with one for each missing part. -/
theorem signFor_cases (h : Hashes) (d : Db) (id : FileId) (row : FileRow) :
    (signFor h d id row).2.Refused ∨
    (∃ url, (signFor h d id row).2 = Pc.returns (.single id row.key url)) ∨
    ∃ partSize partCount uploaded urls, (signFor h d id row).2 =
      Pc.returns (.multipart id row.key partSize partCount uploaded urls) := by
  unfold signFor
  split
  · exact Or.inr (Or.inl ⟨_, rfl⟩)
  · split
    · exact Or.inl ⟨_, rfl⟩
    · exact Or.inr (Or.inr ⟨_, _, _, _, rfl⟩)

/-- A commit is refused, is over already, or goes on with the row found. -/
theorem commitFind_cases (d : Db) (viewer : AccessClaims) (id : FileId) :
    (commitFind d viewer id).Refused ∨ ∃ row, (d.files id).base = some row ∧
      (row.status = .completed ∧ commitFind d viewer id =
          Pc.returns (.committed id row.key row.size (row.etag.getD "")) ∨
        (∃ u, row.uploadId = some u ∧ commitFind d viewer id = .commitParts id row u) ∨
        commitFind d viewer id = .commitHead id row) := by
  unfold commitFind
  split
  · exact Or.inl ⟨_, rfl⟩
  · next row hrow =>
      refine Or.inr ⟨row, checkOwned_ok hrow, ?_⟩
      split
      · next hc => exact Or.inl ⟨hc, rfl⟩
      · split
        · next u hu => exact Or.inr (Or.inl ⟨u, hu, rfl⟩)
        · exact Or.inr (Or.inr rfl)

/-- With its parts listed a commit is refused, has no upload, or goes on to completing. -/
theorem commitParts_cases (h : Hashes) (d : Db) (id : FileId) (row : FileRow) (u : UploadId) :
    (commitParts h d id row u).Refused ∨ commitParts h d id row u = .commitGone id row ∨
    ∃ parts, commitParts h d id row u = .commitComplete id row u parts := by
  unfold commitParts
  split
  · exact Or.inr (Or.inl rfl)
  · split
    · exact Or.inl ⟨_, rfl⟩
    · dsimp only
      split
      · exact Or.inl ⟨_, rfl⟩
      · exact Or.inr (Or.inr ⟨_, rfl⟩)

/-- Completing is refused or goes on to the HEAD. -/
theorem commitComplete_cases (h : Hashes) (d : Db) (id : FileId) (row : FileRow) (u : UploadId)
    (parts : List UploadedPart) : (commitComplete h d id row u parts).2.Refused ∨
    (commitComplete h d id row u parts).2 = .commitHead id row := by
  unfold commitComplete
  split
  · exact Or.inr rfl
  · exact Or.inl ⟨_, rfl⟩
  · exact Or.inr rfl

/-- After the HEAD a commit is refused, deletes the object, or reads its first bytes. -/
theorem commitHead_cases (d : Db) (id : FileId) (row : FileRow) :
    (commitHead d id row).Refused ∨ (∃ err, commitHead d id row = .commitDelete id row err) ∨
    ∃ head, d.bucket.head row.key = some head ∧ head.size = row.size ∧
      commitHead d id row = .commitRead id row head := by
  unfold commitHead
  split
  · exact Or.inl ⟨_, rfl⟩
  · next head hh =>
      split
      · exact Or.inr (Or.inl ⟨_, rfl⟩)
      · next hsize => exact Or.inr (Or.inr ⟨head, hh, not_not.mp hsize, rfl⟩)

/-- After the first bytes a commit is refused, deletes the object, or goes on to the UPDATE. -/
theorem commitRead_cases (d : Db) (id : FileId) (row : FileRow) (head : ObjectHead) :
    (commitRead d id row head).Refused ∨
    (∃ err, commitRead d id row head = .commitDelete id row err) ∨
    ∃ magic, d.bucket.readRange row.key magicBytes = some magic ∧
      magicMatches row.contentType magic = .ok true ∧
      commitRead d id row head = .commitUpdate id row head magic := by
  unfold commitRead
  split
  · exact Or.inl ⟨_, rfl⟩
  · next magic hread =>
      split
      · exact Or.inl ⟨_, rfl⟩
      · exact Or.inr (Or.inl ⟨_, rfl⟩)
      · next hm => exact Or.inr (Or.inr ⟨magic, hread, hm, rfl⟩)

/-- The first step refuses, or goes on to the INSERT with what it was given, and with the
plan of the size. -/
theorem intentChecks_cases (viewer : AccessClaims) (input : IntentInput) (key : Option String) :
    (intentChecks viewer input key).Refused ∨
    ∃ ext plan, intentChecks viewer input key = .intentInsert viewer input ext plan key ∧
      if multipartThresholdBytes < input.size then
        ∃ p, planParts input.size = .ok p ∧ plan = some p
      else plan = none := by
  generalize hr : intentChecks viewer input key = r
  unfold intentChecks at hr
  extract_lets found at hr
  clear_value found
  cases found with
  | none => exact Or.inl ⟨_, hr.symm⟩
  | some type =>
      dsimp only at hr
      split at hr
      · exact Or.inl ⟨_, hr.symm⟩
      · split at hr
        · next hsize =>
            split at hr
            · exact Or.inl ⟨_, hr.symm⟩
            · next plan hplan =>
                refine Or.inr ⟨_, _, hr.symm, ?_⟩
                rw [if_pos hsize]
                exact ⟨plan, hplan, rfl⟩
        · next hsize =>
            refine Or.inr ⟨_, _, hr.symm, ?_⟩
            rw [if_neg hsize]

/-! ## What a statement does to the bucket -/

/-- The call is about to delete the object under this key. -/
def Pc.Deletes (key : ObjectKey) : Pc → Prop
  | .commitDelete _ row _ | .sweepObject row _ _ => row.key = key
  | _ => False

/-- What a statement of a call at `pc` does to the bucket. -/
inductive Stored (d d' : Db) : Pc → Prop
  | same {pc : Pc} : d'.bucket = d.bucket → Stored d d' pc
  | create {id : FileId} {row : FileRow} :
      d'.bucket = (d.bucket.createMultipart row.key).1 → Stored d d' (.intentCreate id row)
  | complete {id : FileId} {row : FileRow} {u : UploadId} {parts : List UploadedPart}
      {up : Upload} {o : StoredObject} : d.bucket.openUpload row.key u = some up →
      d'.bucket = { d.bucket with
        objects := Function.update d.bucket.objects row.key (some o)
        uploads := Function.update d.bucket.uploads u none } →
      Stored d d' (.commitComplete id row u parts)
  | delete {pc : Pc} {key : ObjectKey} : pc.Deletes key →
      d'.bucket = d.bucket.deleteObject key → Stored d d' pc
  | abort {id : FileId} {row : FileRow} {u : UploadId} {rest rows : List (FileId × FileRow)} :
      d'.bucket = d.bucket.abortMultipart row.key u →
      Stored d d' (.sweepAbort ((id, row) :: rest) rows)

/-- Signing leaves storage alone. -/
theorem signFor_bucket (h : Hashes) (d : Db) (id : FileId) (row : FileRow) :
    (signFor h d id row).1.bucket = d.bucket := by
  unfold signFor
  split
  · rfl
  · split <;> rfl

/-- Completing changes storage in one of the ways of `Stored`. -/
theorem commitComplete_stored {id : FileId} {row : FileRow} {u : UploadId}
    {parts : List UploadedPart} :
    Stored d (commitComplete h d id row u parts).1 (.commitComplete id row u parts) := by
  unfold commitComplete Bucket.completeMultipart
  split
  · exact .same rfl
  · exact .same rfl
  · next b hb =>
      split at hb
      · cases hb
      · next up hup =>
          split at hb
          · cases hb
          · cases hb
            exact .complete hup rfl

/-- Every statement changes storage in one of the ways of `Stored`. -/
theorem Does.stored (hd : Does h i d pc a d' pc') : Stored d d' pc := by
  cases hd with
  | create => exact .create rfl
  | sign => exact .same (signFor_bucket _ _ _ _)
  | complete => exact commitComplete_stored
  | delete => exact .delete rfl rfl
  | sweepObject => exact .delete rfl rfl
  | sweepAbort _ => exact .abort rfl
  | _ => exact .same rfl

end Marketplace.Files
