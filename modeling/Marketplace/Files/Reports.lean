import Marketplace.Files.Completed
import Marketplace.Files.Steps

/-!
# Files.Reports — does commit report a completion that did not happen?

The UPDATE of `commit` is conditional on the row still being PENDING, and nobody looks at
how many rows it changed: `commit` answers with what HeadObject said. A sweep may have
deleted the row by then (`commit_misreports`), or another commit may have completed it
with another ETag.

`commit_reports_iff`: the answers along a run are true exactly if every UPDATE of a commit
finds its row, and finds it PENDING or COMPLETED with the ETag that this commit has read.
-/

namespace Marketplace.Files

open Core Auth

/-! ## Reports that are true -/

/-- If this step makes a commit answer, the row of its file is there, COMPLETED, with the
size and the ETag of the answer. -/
def ReportsTrue (h : Hashes) (s : St) (l : Label) : Prop :=
  ∀ i a t id key size etag, l = .call i a → (machine h).next s l = some t →
    t.proc i = Pc.returns (.committed id key size etag) →
    ∃ row, (t.shared.files id).base = some row ∧ row.status = .completed ∧ row.size = size ∧
      row.etag = some etag

/-- If this step is the UPDATE of a commit, the row is there, and if it is COMPLETED
already, then with the ETag this commit has read. -/
def UpdateLands (s : St) (l : Label) : Prop :=
  ∀ i id row head magic, l = .call i .run → s.proc i = .commitUpdate id row head magic →
    ∃ r, (s.shared.files id).base = some r ∧ (r.status = .completed → r.etag = some head.etag)

/-! ## Which statements make a commit answer -/

/-- The call has ended with the answer of a commit. -/
def Pc.Committed : Pc → Prop
  | .done (.ok (.committed _ _ _ _)) => True
  | _ => False

theorem Pc.Refused.silent {pc : Pc} (h : pc.Refused) : ¬ pc.Committed := by
  obtain ⟨err, rfl⟩ := h
  exact id

theorem Found.silent {d : Db} {pc : Pc} (h : Found d pc) : ¬ pc.Committed := by
  obtain ⟨id', row, -, ⟨-, rfl⟩ | rfl⟩ := h <;> exact id

/-- The checks of an intent report no completion. -/
theorem intentChecks_silent (viewer : AccessClaims) (input : IntentInput) (key : Option String) :
    ¬ (intentChecks viewer input key).Committed := by
  rcases intentChecks_cases viewer input key with href | ⟨ext, plan, hins, -⟩
  · exact href.silent
  · rw [hins]
    exact id

/-- Signing reports no completion. -/
theorem signFor_silent (h : Hashes) (d : Db) (id' : FileId) (row : FileRow) :
    ¬ (signFor h d id' row).2.Committed := by
  rcases signFor_cases h d id' row with href | ⟨url, heq⟩ | ⟨ps, pn, uploaded, urls, heq⟩
  · exact href.silent
  · rw [heq]
    exact id
  · rw [heq]
    exact id

/-- Listing parts reports no completion. -/
theorem commitParts_silent (h : Hashes) (d : Db) (id' : FileId) (row : FileRow) (u : UploadId) :
    ¬ (commitParts h d id' row u).Committed := by
  rcases commitParts_cases h d id' row u with href | heq | ⟨parts, heq⟩
  · exact href.silent
  · rw [heq]
    exact id
  · rw [heq]
    exact id

/-- Completing the upload reports no completion of the file. -/
theorem commitComplete_silent (h : Hashes) (d : Db) (id' : FileId) (row : FileRow)
    (u : UploadId) (parts : List UploadedPart) :
    ¬ (commitComplete h d id' row u parts).2.Committed := by
  rcases commitComplete_cases h d id' row u parts with href | heq
  · exact href.silent
  · rw [heq]
    exact id

/-- The HEAD reports no completion. -/
theorem commitHead_silent (d : Db) (id' : FileId) (row : FileRow) :
    ¬ (commitHead d id' row).Committed := by
  rcases commitHead_cases d id' row with href | ⟨err, heq⟩ | ⟨head, -, -, heq⟩
  · exact href.silent
  · rw [heq]
    exact id
  · rw [heq]
    exact id

/-- Reading the first bytes reports no completion. -/
theorem commitRead_silent (d : Db) (id' : FileId) (row : FileRow) (head : ObjectHead) :
    ¬ (commitRead d id' row head).Committed := by
  rcases commitRead_cases d id' row head with href | ⟨err, heq⟩ | ⟨magic, -, -, heq⟩
  · exact href.silent
  · rw [heq]
    exact id
  · rw [heq]
    exact id

/-- A sweep reports no completion. -/
theorem sweepNext_silent (rest rows : List (FileId × FileRow)) :
    ¬ (sweepNext rest rows).Committed := by
  unfold sweepNext
  split
  · split <;> exact id
  · split <;> exact id

/-- The lookup answers for a row that is COMPLETED, with the row's own values. -/
theorem commitFind_committed {d : Db} {viewer : AccessClaims} {id id' : FileId}
    {key : ObjectKey} {size : ℕ} {etag : ETag}
    (h : commitFind d viewer id = Pc.returns (.committed id' key size etag)) :
    id' = id ∧ ∃ row, (d.files id).base = some row ∧ row.status = .completed ∧
      size = row.size ∧ etag = row.etag.getD "" := by
  rcases commitFind_cases d viewer id with
    ⟨err, heq⟩ | ⟨row, hb, ⟨hc, heq⟩ | ⟨u, -, heq⟩ | heq⟩
  · rw [heq] at h
    cases h
  · rw [heq] at h
    cases h
    exact ⟨rfl, row, hb, hc, rfl, rfl⟩
  · rw [heq] at h
    cases h
  · rw [heq] at h
    cases h

/-- A commit answers from its lookup or after its UPDATE, and nowhere else. -/
theorem Does.committed {h : Hashes} {i : ℕ} {d d' : Db} {pc pc' : Pc} {a : Stmt}
    {id : FileId} {key : ObjectKey} {size : ℕ} {etag : ETag} (hd : Does h i d pc a d' pc')
    (hr : pc' = Pc.returns (.committed id key size etag)) :
    (d' = d ∧ ∃ viewer, pc = .commitFind viewer id ∧
      Files.commitFind d viewer id = Pc.returns (.committed id key size etag)) ∨
    ∃ row head magic, pc = .commitUpdate id row head magic ∧ a = .run ∧ size = head.size ∧
      etag = head.etag ∧
      ((∃ r, (d.files id).base = some r ∧ r.status = .pending ∧
        d' = setFile id { r with status := .completed, etag := some head.etag } d) ∨
      d' = d ∧ ∀ r, (d.files id).base = some r → r.status = .completed) := by
  have hcom : pc'.Committed := by
    rw [hr]
    trivial
  cases hd with
  | commitFind =>
      obtain ⟨rfl, -⟩ := commitFind_committed hr
      exact Or.inl ⟨rfl, _, rfl, hr⟩
  | update _ hb hp =>
      cases hr
      exact Or.inr ⟨_, _, _, rfl, rfl, rfl, rfl, Or.inl ⟨_, hb, hp, rfl⟩⟩
  | updateNothing hc =>
      cases hr
      exact Or.inr ⟨_, _, _, rfl, rfl, rfl, rfl, Or.inr ⟨rfl, hc⟩⟩
  | intent => exact absurd hcom (intentChecks_silent _ _ _)
  | find => exact absurd hcom ((intentFind_cases _ _ _ _).elim Pc.Refused.silent Found.silent)
  | sign => exact absurd hcom (signFor_silent _ _ _ _)
  | resumeFind => exact absurd hcom ((resumeFind_cases _ _ _).elim Pc.Refused.silent Found.silent)
  | parts => exact absurd hcom (commitParts_silent _ _ _ _ _)
  | complete => exact absurd hcom (commitComplete_silent _ _ _ _ _ _)
  | head => exact absurd hcom (commitHead_silent _ _ _)
  | read => exact absurd hcom (commitRead_silent _ _ _ _)
  | select => exact absurd hcom (sweepNext_silent _ _)
  | sweepObject => exact absurd hcom (sweepNext_silent _ _)
  | sweepObjectError => exact absurd hcom (sweepNext_silent _ _)
  | insert | gone => split at hr <;> cases hr
  | _ => cases hr

/-! ## What holds between the checks and the UPDATE -/

/-- Every COMPLETED row has an ETag. -/
def Tagged (d : Db) : Prop :=
  Versions d ∧ ∀ id row, (d.files id).base = some row → row.status = .completed →
    ∃ etag, row.etag = some etag

/-- The object had the size of the row. -/
def Pc.Sized : Pc → Prop
  | .commitRead _ row head | .commitUpdate _ row head _ => head.size = row.size
  | _ => True

/-- A call without a HEAD in hand has no size to compare. -/
theorem Pc.Sized.of_plain {pc : Pc} (hp : pc.Plain) : pc.Sized := by
  cases pc with
  | commitRead _ _ _ | commitUpdate _ _ _ _ => exact hp.elim
  | _ => trivial

/-- A call that has just read its row has no size to compare. -/
theorem Pc.Sized.of_loaded {pc : Pc} {id : FileId} {row : FileRow} (hp : pc.Loaded id row) :
    pc.Sized := by
  cases pc with
  | commitRead _ _ _ | commitUpdate _ _ _ _ => exact hp.elim
  | _ => trivial

/-- A commit past the HEAD has found the size of its row. -/
theorem Next.sized {h : Hashes} {d d' : Db} {pc pc' : Pc} (hn : Next h d d' pc pc')
    (hs : pc.Sized) : pc'.Sized := by
  cases hn with
  | plain hp _ => exact Pc.Sized.of_plain hp
  | @checks viewer input key =>
      rcases intentChecks_cases viewer input key with ⟨err, herr⟩ | ⟨ext, plan, hins, -⟩
      · rw [herr]
        trivial
      · rw [hins]
        trivial
  | load _ hp _ => exact Pc.Sized.of_loaded hp
  | list _ _ => trivial
  | pass _ hp _ => exact Pc.Sized.of_loaded hp
  | head _ hsize _ => exact hsize
  | read _ _ _ => exact hs

/-- One statement: a row that becomes COMPLETED gets an ETag. -/
theorem Tagged.stmt {h : Hashes} {i : ℕ} {d d' : Db} {pc pc' : Pc} {a : Stmt}
    (ht : Tagged d) (hst : stmt h i d pc a = some (d', pc')) : Tagged d' := by
  have he := stmt_effect hst
  refine ⟨he.versions ht.1, ?_⟩
  intro id row hb hc
  cases he.rowChange ht.1 id with
  | keep heq => exact ht.2 id row (heq ▸ hb) hc
  | gone heq =>
      rw [heq] at hb
      cases hb
  | insert _ _ heq =>
      rw [heq] at hb
      cases hb
      cases hc
  | @setUpload _ r _ hb₀ heq =>
      rw [heq] at hb
      cases hb
      exact ht.2 id r hb₀ hc
  | @complete _ _ head _ _ _ heq =>
      rw [heq] at hb
      cases hb
      exact ⟨head.etag, rfl⟩

/-- In every reachable state completed rows have an ETag, and commits past the HEAD the size of
their row. -/
theorem tagged_reachable {h : Hashes} {s : St} (hs : (machine h).Reachable s) :
    Procs.Holds Tagged (fun _ _ pc => pc.Sized) s := by
  obtain ⟨s₀, as, hinit, hr⟩ := hs
  have h₀ : Procs.Holds Tagged (fun _ _ pc => pc.Sized) s₀ := by
    refine ⟨⟨Versions.init hinit.1, ?_⟩, ?_⟩
    · intro id row hb
      rw [hinit.1.1 id, Slot.settled_base] at hb
      cases hb
    · intro i
      rw [hinit.2 i]
      trivial
  refine Procs.noninterference Machine.Always Tagged _ ?_ ?_ hr h₀
  · intro s i a d p _ hs hst
    exact ⟨hs.1.stmt hst, (stmt_next hst).sized (hs.2 i), fun j _ => hs.2 j⟩
  · intro s e d _ hs he
    obtain ⟨hf, hn⟩ := env_files he
    refine ⟨⟨hs.1.1.env he, ?_⟩, hs.2⟩
    rw [hf]
    exact hs.1.2

/-! ## Every run -/

/-- One step: the answer is true exactly if the UPDATE lands. -/
theorem reportsTrue_iff {h : Hashes} {s t : St} {l : Label} (hs : (machine h).Reachable s)
    (hn : (machine h).next s l = some t) : ReportsTrue h s l ↔ UpdateLands s l := by
  have hk := checked_reachable hs
  have ht := tagged_reachable hs
  constructor
  · intro hrep i id row head magic hl hpc
    subst hl
    obtain ⟨d, p, hst, rfl⟩ := Procs.next_call hn
    have hd : Does h i s.shared (s.proc i) .run d p := stmt_does hst
    -- the answer is given with the UPDATE, whether it wrote a row or not
    have hans : p = Pc.returns (.committed id row.key head.size head.etag) := by
      rw [hpc] at hd
      cases hd with
      | update _ _ _ => rfl
      | updateNothing _ => rfl
    have hproc : (Function.update s.proc i p) i =
        Pc.returns (.committed id row.key head.size head.etag) := by
      rw [Function.update_self, hans]
    obtain ⟨r', hb', hc', hsize', hetag'⟩ := hrep i .run _ id _ _ _ rfl hn hproc
    -- what is there afterwards was there before, or is what the UPDATE made of it
    rw [hpc] at hd
    cases hd with
    | update _ hb hp =>
        refine ⟨_, hb, ?_⟩
        intro hc
        rw [hp] at hc
        cases hc
    | updateNothing _ => exact ⟨r', hb', fun _ => hetag'⟩
  · intro hland i a t' id key size etag hl hn' hproc
    subst hl
    obtain ⟨d, p, hst, rfl⟩ := Procs.next_call hn'
    have hp : p = Pc.returns (.committed id key size etag) := by
      rw [← hproc]
      exact (Function.update_self i p s.proc).symm
    rcases (stmt_does hst).committed hp with
      ⟨rfl, viewer, -, hfind⟩ | ⟨row, head, magic, hpc, rfl, rfl, rfl, hupd⟩
    · obtain ⟨-, r, hb, hc, hsize, hetag⟩ := commitFind_committed hfind
      obtain ⟨e, he⟩ := ht.1.2 id r hb hc
      refine ⟨r, hb, hc, hsize.symm, ?_⟩
      rw [hetag, he]
      rfl
    · have hloc := hk.2 i
      have hsize := ht.2 i
      rw [hpc] at hloc hsize
      obtain ⟨r, hb, hetag⟩ := hland i id row head magic rfl hpc
      have hrow : r.size = head.size := ((hloc.1.2 r hb).2.2).trans hsize.symm
      rcases hupd with ⟨r', hb', -, rfl⟩ | ⟨rfl, hall⟩
      · rw [hb] at hb'
        cases hb'
        refine ⟨{ r with status := .completed, etag := some head.etag }, ?_, rfl, hrow, rfl⟩
        change ((setFile id _ s.shared).files id).base = _
        rw [setFile_self, Slot.settled_base]
      · have hc := hall r hb
        exact ⟨r, hb, hc, hrow, hetag hc⟩

/-- The answers of the commits along a run are true exactly if every UPDATE lands. -/
theorem commit_reports_iff (h : Hashes) (s₀ s : St) (as : List Label)
    (hinit : (machine h).Init s₀) :
    (machine h).Run (ReportsTrue h) s₀ as s ↔ (machine h).Run UpdateLands s₀ as s := by
  constructor
  · intro hr
    induction hr with
    | refl => exact .refl
    | step hr hok hn ih =>
        have hreach : (machine h).Reachable _ := ⟨s₀, _, hinit, hr.always⟩
        exact ih.step ((reportsTrue_iff hreach hn).mp hok) hn
  · intro hr
    induction hr with
    | refl => exact .refl
    | step hr hok hn ih =>
        have hreach : (machine h).Reachable _ := ⟨s₀, _, hinit, hr.always⟩
        exact ih.step ((reportsTrue_iff hreach hn).mpr hok) hn

/-! ## A picture, committed in time or too late -/

/-- A step that is not the UPDATE of a commit. -/
def notUpdate (s : St) : Label → Bool
  | .call i _ => match s.proc i with
    | .commitUpdate _ _ _ _ => false
    | _ => true
  | .env _ => true

/-- A step that is no UPDATE has none to land. -/
theorem notUpdate_lands (s : St) (l : Label) (hq : notUpdate s l = true) : UpdateLands s l := by
  intro i id row head magic hl hpc
  subst hl
  simp [notUpdate, hpc] at hq

/-- The commit up to its UPDATE. -/
def pngChecked : List Label :=
  pngIntent ++ [.env (.upload pngUrl pngHead), .call 2 (.commit buyer 1), .call 2 .run,
    .call 2 .run, .call 2 .run]

/-- A day later a sweep takes the row away. -/
def sweptAway : List Label :=
  [.env (.tick (secs (25 * 3600))), .call 3 (.sweepOrphans 24), .call 3 (.select [1]),
    .call 3 .run, .call 3 .run, .call 3 .run]

/-- The commit stalls before its UPDATE, the sweep deletes the row and the object, and the
commit still answers that the file is COMPLETED. -/
theorem commit_misreports :
    ¬ ∀ s l, (machine plainHashes).Reachable s → ReportsTrue plainHashes s l := by
  intro hall
  have hrun : ∃ s t, (machine plainHashes).exec (fun _ _ => true) start
        (pngChecked ++ sweptAway) = some s ∧
      (machine plainHashes).next s (.call 2 .run) = some t ∧
      t.proc 2 = Pc.returns (.committed 1 pngUrl.key 8 "single") ∧
      (t.shared.files 1).base = none :=
    ⟨_, _, rfl, rfl, rfl, rfl⟩
  obtain ⟨s, t, hexec, hn, hproc, hgone⟩ := hrun
  have hreach : (machine plainHashes).Reachable s :=
    ⟨start, _, start_init plainHashes, Machine.exec_always hexec⟩
  obtain ⟨row, hb, -⟩ := hall s (.call 2 .run) hreach 2 .run t 1 _ _ _ rfl hn hproc
  rw [hgone] at hb
  cases hb

/-- Committed in time, the answer is true. -/
theorem commit_reports_png : ∃ s, (machine plainHashes).Run (ReportsTrue plainHashes) start
      (pngChecked ++ [.call 2 .run]) s ∧
    s.proc 2 = Pc.returns (.committed 1 pngUrl.key 8 "single") := by
  have hrun : ∃ s₁ s row head magic r,
      (machine plainHashes).exec notUpdate start pngChecked = some s₁ ∧
      (machine plainHashes).next s₁ (.call 2 .run) = some s ∧
      s.proc 2 = Pc.returns (.committed 1 pngUrl.key 8 "single") ∧
      s₁.proc 2 = .commitUpdate 1 row head magic ∧
      (s₁.shared.files 1).base = some r ∧ r.status = .pending :=
    ⟨_, _, _, _, _, _, rfl, rfl, rfl, rfl, rfl, rfl⟩
  obtain ⟨s₁, s, row, head, magic, r, h₁, h₂, hproc, hpc, hb, hp⟩ := hrun
  have hlands : UpdateLands s₁ (.call 2 .run) := by
    intro i id row' head' magic' hl hpc'
    cases hl
    rw [hpc] at hpc'
    cases hpc'
    refine ⟨r, hb, ?_⟩
    intro hc
    rw [hp] at hc
    cases hc
  have hr := (Machine.exec_run notUpdate_lands h₁).trans (Machine.Run.single hlands h₂)
  exact ⟨s, (commit_reports_iff plainHashes start s _ (start_init plainHashes)).mpr hr, hproc⟩

end Marketplace.Files
