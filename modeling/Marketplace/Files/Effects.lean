import Marketplace.Files.Steps

/-!
# Files.Effects — what one statement does

`stmt_effect` lists everything a statement of any call can do to the rows of `files`, and
`stmt_next` where the call goes from there. The invariants are read off
these two: two versions of a row never disagree (`Versions`), and a committed row
changes in five ways only (`RowChange`).
-/

namespace Marketplace.Files

open Core Auth

namespace Pc

/-- A `commit` that has loaded `row` and not looked at the object yet. -/
def Loaded (id : FileId) (row : FileRow) : Pc → Prop
  | .commitParts id' row' _ | .commitGone id' row' | .commitComplete id' row' _ _
  | .commitHead id' row' => id' = id ∧ row' = row
  | _ => False

/-- The parts are listed, and CompleteMultipartUpload comes next. -/
def Completes : Pc → Prop
  | .commitComplete _ _ _ _ => True
  | _ => False

/-- The call is a sweep that has selected its rows. -/
def Sweeps : Pc → Prop
  | .sweepAbort _ _ | .sweepObject _ _ _ | .sweepDelete _ | .sweepCommit _ => True
  | _ => False

/-- The call goes on as a sweep at work, from a sweep at work or from its SELECT. -/
def SweepsOn (pc pc' : Pc) : Prop :=
  pc'.Sweeps → pc.Sweeps ∨ ∃ hours at₀, pc = .sweepSelect hours at₀

/-- Nothing has to be known here. -/
def Plain : Pc → Prop
  | .intentInsert _ _ _ _ _ | .commitParts _ _ _ | .commitGone _ _ | .commitComplete _ _ _ _
  | .commitHead _ _ | .commitRead _ _ _ | .commitUpdate _ _ _ _ => False
  | _ => True

end Pc

/-- A call with a row in hand is no sweep at work. -/
theorem Pc.Loaded.not_sweeps {id : FileId} {row : FileRow} {pc : Pc} (hp : pc.Loaded id row) :
    ¬ pc.Sweeps := by
  cases pc with
  | sweepAbort _ _ | sweepObject _ _ _ | sweepDelete _ | sweepCommit _ => exact hp.elim
  | _ => exact False.elim

/-! ## The table -/

/-- What a statement of call `i` at `pc` does to the table. -/
inductive Effect (i : ℕ) (d d' : Db) : Pc → Prop
  | same {pc : Pc} : d'.files = d.files → d'.nextFile = d.nextFile → Effect i d d' pc
  | insert {viewer : AccessClaims} {input : IntentInput} {ext : String}
      {plan : Option PartPlan} {key : Option String} :
      d' = insertRow d (newRow d viewer input ext plan key) →
      Effect i d d' (.intentInsert viewer input ext plan key)
  | setUpload {id : FileId} {row r : FileRow} {uploadId : UploadId} :
      (d.files id).Free i → (d.files id).base = some r →
      d' = setFile id { r with uploadId := some uploadId } d →
      Effect i d d' (.intentUpdate id row uploadId)
  | complete {id : FileId} {row r : FileRow} {head : ObjectHead} {magic : Bytes} :
      (d.files id).Free i → (d.files id).base = some r → r.status = .pending →
      d' = setFile id { r with status := .completed, etag := some head.etag } d →
      Effect i d d' (.commitUpdate id row head magic)
  | lock {hours at₀ : ℕ} {ids : List FileId} :
      Selected i at₀ hours d ids → d' = lockAll i ids d →
      Effect i d d' (.sweepSelect hours at₀)
  | delete {rows : List (FileId × FileRow)} :
      d' = { d with files := d.files.deleteAll i (rows.map Prod.fst) } →
      Effect i d d' (.sweepDelete rows)
  | commit {count : ℕ} :
      d' = { d with files := d.files.commit i } → Effect i d d' (.sweepCommit count)
  | rollback {pc : Pc} :
      d' = { d with files := d.files.rollback i } → Effect i d d' pc

/-- Every statement is one of the ways of `Effect`, which say what it writes. -/
theorem Does.effect {h : Hashes} {i : ℕ} {d d' : Db} {pc pc' : Pc} {a : Stmt}
    (hd : Does h i d pc a d' pc') : Effect i d d' pc := by
  cases hd with
  | insert hrow _ =>
      subst hrow
      exact .insert rfl
  | setUpload hfree hb => exact .setUpload hfree hb rfl
  | @sign id row =>
      unfold signFor
      split
      · exact .same rfl rfl
      · split <;> exact .same rfl rfl
  | @complete id row u parts =>
      unfold Files.commitComplete
      split <;> exact .same rfl rfl
  | update hfree hb hp => exact .complete hfree hb hp rfl
  | select hsel => exact .lock hsel rfl
  | sweepDelete => exact .delete rfl
  | sweepCommit => exact .commit rfl
  | abort _ => exact .rollback rfl
  | _ => exact .same rfl rfl

theorem stmt_effect {h : Hashes} {i : ℕ} {d d' : Db} {pc pc' : Pc} {a : Stmt}
    (hst : stmt h i d pc a = some (d', pc')) : Effect i d d' pc :=
  (stmt_does hst).effect

/-! ## Where a call goes next -/

/-- The call commits or sweeps, or it has ended without URLs: it inserts and signs nothing any
more. -/
def Pc.Past : Pc → Prop
  | .idle | .intentInsert _ _ _ _ _ | .intentFind _ _ _ | .intentCreate _ _ | .intentUpdate _ _ _
  | .sign _ _ | .resumeFind _ _ | .done (.ok (.single _ _ _))
  | .done (.ok (.multipart _ _ _ _ _ _)) => False
  | _ => True

theorem Pc.Refused.past {pc : Pc} (href : pc.Refused) : pc.Past := by
  obtain ⟨err, rfl⟩ := href
  trivial

/-- The next step of a sweep hands out no URL. -/
theorem sweepNext_past (rest rows : List (FileId × FileRow)) : (sweepNext rest rows).Past := by
  unfold sweepNext
  split
  · split <;> trivial
  · split <;> trivial

/-- There is no way back. -/
theorem Does.past {h : Hashes} {i : ℕ} {d d' : Db} {pc pc' : Pc} {a : Stmt}
    (hd : Does h i d pc a d' pc') (hpc : pc.Past) : pc'.Past := by
  -- a call that is past handing out stays so; the first nine statements are of calls that are not
  cases hd with
  | intent => exact hpc.elim
  | resume => exact hpc.elim
  | begin => exact hpc.elim
  | sweep => exact hpc.elim
  | insert _ _ => exact hpc.elim
  | conflict _ => exact hpc.elim
  | find => exact hpc.elim
  | create => exact hpc.elim
  | setUpload _ _ => exact hpc.elim
  | setNothing _ => exact hpc.elim
  | sign => exact hpc.elim
  | resumeFind => exact hpc.elim
  | @commitFind viewer id =>
      rcases commitFind_cases d viewer id with href | ⟨row, -, ⟨-, heq⟩ | ⟨u, -, heq⟩ | heq⟩
      · exact href.past
      all_goals
        rw [heq]
        trivial
  | @parts id row u =>
      rcases commitParts_cases h d id row u with href | heq | ⟨parts, heq⟩
      · exact href.past
      all_goals
        rw [heq]
        trivial
  | gone => split <;> trivial
  | @complete id row u parts =>
      rcases commitComplete_cases h d id row u parts with href | heq
      · exact href.past
      · rw [heq]
        trivial
  | @head id row =>
      rcases commitHead_cases d id row with href | ⟨err, heq⟩ | ⟨head, -, -, heq⟩
      · exact href.past
      all_goals
        rw [heq]
        trivial
  | @read id row head =>
      rcases commitRead_cases d id row head with href | ⟨err, heq⟩ | ⟨magic, -, -, heq⟩
      · exact href.past
      all_goals
        rw [heq]
        trivial
  | select _ => exact sweepNext_past _ _
  | sweepObject => exact sweepNext_past _ _
  | sweepObjectError => exact sweepNext_past _ _
  | _ => trivial

/-- The steps of a call, with what each carries on. -/
inductive Next (h : Hashes) (d d' : Db) : Pc → Pc → Prop
  | plain {pc pc' : Pc} : pc'.Plain → pc.SweepsOn pc' → Next h d d' pc pc'
  | checks {viewer : AccessClaims} {input : IntentInput} {key : Option String} :
      Next h d d' .idle (intentChecks viewer input key)
  | load {viewer : AccessClaims} {id : FileId} {row : FileRow} {pc' : Pc} :
      (d.files id).base = some row → pc'.Loaded id row → ¬ pc'.Completes →
      Next h d d' (.commitFind viewer id) pc'
  | list {id : FileId} {row : FileRow} {uploadId : UploadId} {parts : List UploadedPart} :
      commitParts h d id row uploadId = .commitComplete id row uploadId parts → d' = d →
      Next h d d' (.commitParts id row uploadId) (.commitComplete id row uploadId parts)
  | pass {id : FileId} {row : FileRow} {pc pc' : Pc} :
      pc.Loaded id row → pc'.Loaded id row → ¬ pc'.Completes → Next h d d' pc pc'
  | head {id : FileId} {row : FileRow} {head : ObjectHead} :
      d.bucket.head row.key = some head → head.size = row.size → d' = d →
      Next h d d' (.commitHead id row) (.commitRead id row head)
  | read {id : FileId} {row : FileRow} {head : ObjectHead} {magic : Bytes} :
      d.bucket.readRange row.key magicBytes = some magic →
      magicMatches row.contentType magic = .ok true → d' = d →
      Next h d d' (.commitRead id row head) (.commitUpdate id row head magic)

theorem Pc.Refused.next {h : Hashes} {d d' : Db} {pc pc' : Pc} (href : pc'.Refused) :
    Next h d d' pc pc' := by
  obtain ⟨err, rfl⟩ := href
  exact .plain trivial False.elim

theorem Found.next {h : Hashes} {d d' : Db} {pc pc' : Pc} (hf : Found d pc') :
    Next h d d' pc pc' := by
  obtain ⟨id, row, -, ⟨-, rfl⟩ | rfl⟩ := hf <;> exact .plain trivial False.elim

/-- The next step of a sweep has no row to complete. -/
theorem sweepNext_plain (rest rows : List (FileId × FileRow)) : (sweepNext rest rows).Plain := by
  unfold sweepNext
  split
  · split <;> trivial
  · split <;> trivial

/-- What the read of a commit leads to is one of the ways of `Next`. -/
theorem commitFind_next {h : Hashes} {d : Db} {viewer : AccessClaims} {id : FileId} :
    Next h d d (.commitFind viewer id) (commitFind d viewer id) := by
  rcases commitFind_cases d viewer id with
    href | ⟨row, hb, ⟨-, heq⟩ | ⟨u, -, heq⟩ | heq⟩
  · exact href.next
  · rw [heq]
    exact .plain trivial False.elim
  · rw [heq]
    exact .load hb ⟨rfl, rfl⟩ nofun
  · rw [heq]
    exact .load hb ⟨rfl, rfl⟩ nofun

/-- What listing the parts leads to is one of the ways of `Next`. -/
theorem commitParts_next {h : Hashes} {d : Db} {id : FileId} {row : FileRow}
    {uploadId : UploadId} :
    Next h d d (.commitParts id row uploadId) (commitParts h d id row uploadId) := by
  rcases commitParts_cases h d id row uploadId with href | heq | ⟨parts, heq⟩
  · exact href.next
  · rw [heq]
    exact .pass ⟨rfl, rfl⟩ ⟨rfl, rfl⟩ nofun
  · have hlist : Next h d d (.commitParts id row uploadId)
        (.commitComplete id row uploadId parts) := .list heq rfl
    rwa [← heq] at hlist

/-- What the HEAD leads to is one of the ways of `Next`. -/
theorem commitHead_next {h : Hashes} {d : Db} {id : FileId} {row : FileRow} :
    Next h d d (.commitHead id row) (commitHead d id row) := by
  rcases commitHead_cases d id row with href | ⟨err, heq⟩ | ⟨head, hh, hsize, heq⟩
  · exact href.next
  · rw [heq]
    exact .plain trivial False.elim
  · rw [heq]
    exact .head hh hsize rfl

/-- What reading the first bytes leads to is one of the ways of `Next`. -/
theorem commitRead_next {h : Hashes} {d : Db} {id : FileId} {row : FileRow} {head : ObjectHead} :
    Next h d d (.commitRead id row head) (commitRead d id row head) := by
  rcases commitRead_cases d id row head with href | ⟨err, heq⟩ | ⟨magic, hread, hm, heq⟩
  · exact href.next
  · rw [heq]
    exact .plain trivial False.elim
  · rw [heq]
    exact .read hread hm rfl

/-- Every statement leads on in one of the ways of `Next`. -/
theorem Does.next {h : Hashes} {i : ℕ} {d d' : Db} {pc pc' : Pc} {a : Stmt}
    (hd : Does h i d pc a d' pc') : Next h d d' pc pc' := by
  cases hd with
  | intent => exact .checks
  | insert _ _ => split <;> exact .plain trivial False.elim
  | find => exact (intentFind_cases _ _ _ _).elim Pc.Refused.next Found.next
  | @sign id row =>
      rcases signFor_cases h d id row with href | ⟨url, heq⟩ | ⟨ps, pn, uploaded, urls, heq⟩
      · exact href.next
      · rw [heq]
        exact .plain trivial False.elim
      · rw [heq]
        exact .plain trivial False.elim
  | resumeFind => exact (resumeFind_cases _ _ _).elim Pc.Refused.next Found.next
  | commitFind => exact commitFind_next
  | parts => exact commitParts_next
  | gone =>
      split
      · exact .pass ⟨rfl, rfl⟩ ⟨rfl, rfl⟩ nofun
      · exact .plain trivial False.elim
  | @complete id row u parts =>
      rcases commitComplete_cases h d id row u parts with href | heq
      · exact href.next
      · rw [heq]
        exact .pass ⟨rfl, rfl⟩ ⟨rfl, rfl⟩ nofun
  | head => exact commitHead_next
  | read => exact commitRead_next
  | select _ => exact .plain (sweepNext_plain _ _) fun _ => Or.inr ⟨_, _, rfl⟩
  | sweepObject => exact .plain (sweepNext_plain _ _) fun _ => Or.inl trivial
  | sweepObjectError => exact .plain (sweepNext_plain _ _) fun _ => Or.inl trivial
  | sweepAbort _ | sweepDelete => exact .plain trivial fun _ => Or.inl trivial
  | _ => exact .plain trivial False.elim

/-- What brings a call to its UPDATE is the range read. -/
theorem Does.read_of {h : Hashes} {i : ℕ} {d d' : Db} {pc pc' : Pc} {a : Stmt} {id : FileId}
    {row : FileRow} {head : ObjectHead} {magic : Bytes} (hd : Does h i d pc a d' pc')
    (hpc' : pc' = .commitUpdate id row head magic) :
    pc = .commitRead id row head ∧ a = .run ∧
      d.bucket.readRange row.key magicBytes = some magic := by
  have hrun : ∀ id row head, pc = .commitRead id row head → a = .run ∨ pc' = .aborted := by
    rintro id row head rfl
    cases hd with
    | read => exact Or.inl rfl
    | abort _ => exact Or.inr rfl
  cases hd.next with
  | plain hp _ =>
      rw [hpc'] at hp
      exact hp.elim
  | @checks viewer input key =>
      rcases intentChecks_cases viewer input key with ⟨err, herr⟩ | ⟨ext, plan, hins, -⟩
      · rw [herr] at hpc'
        cases hpc'
      · rw [hins] at hpc'
        cases hpc'
  | load _ hp _ =>
      rw [hpc'] at hp
      exact hp.elim
  | pass _ hp _ =>
      rw [hpc'] at hp
      exact hp.elim
  | list _ _ => cases hpc'
  | head _ _ _ => cases hpc'
  | read hread _ _ =>
      cases hpc'
      exact ⟨rfl, (hrun _ _ _ rfl).resolve_right Pc.noConfusion, hread⟩

theorem stmt_next {h : Hashes} {i : ℕ} {d d' : Db} {pc pc' : Pc} {a : Stmt}
    (hst : stmt h i d pc a = some (d', pc')) : Next h d d' pc pc' :=
  (stmt_does hst).next

/-! ## Two versions of a row -/

/-- A row that is locked and not deleted is the committed one; ids not drawn yet have
no row. -/
def Versions (d : Db) : Prop :=
  (∀ id, d.nextFile ≤ id → (d.files id).base = none) ∧
  ∀ id j r, (d.files id).lock = some (j, some r) → (d.files id).base = some r

/-- A committed row has an id that was drawn. -/
theorem Versions.lt {d : Db} {id : FileId} {r : FileRow} (hv : Versions d)
    (hb : (d.files id).base = some r) : id < d.nextFile := by
  by_contra hn
  rw [hv.1 id (Nat.le_of_not_lt hn)] at hb
  cases hb

/-- What a call sees is the committed row, or nothing. -/
theorem Versions.view {d : Db} {i : ℕ} {id : FileId} {r : FileRow} (hv : Versions d)
    (h : (d.files id).view i = some r) : (d.files id).base = some r := by
  by_cases hh : (d.files id).Held i
  · have hl := hh.lock_eq
    rw [h] at hl
    exact hv.2 id i r hl
  · rwa [Slot.view_of_not_held hh] at h

theorem setFile_self {d : Db} {id : FileId} {row : FileRow} :
    (setFile id row d).files id = Slot.settled (some row) := by
  simp [setFile]

theorem setFile_ne {d : Db} {id k : FileId} {row : FileRow} (h : k ≠ id) :
    (setFile id row d).files k = d.files k := by
  simp [setFile, h]

theorem insertRow_self {d : Db} {row : FileRow} :
    (insertRow d row).files d.nextFile = Slot.settled (some row) := setFile_self

theorem insertRow_ne {d : Db} {k : FileId} {row : FileRow} (h : k ≠ d.nextFile) :
    (insertRow d row).files k = d.files k := setFile_ne h

/-- A plain write keeps the versions of the rows in order. -/
theorem Versions.setFile {d : Db} {id : FileId} {row : FileRow} (hv : Versions d)
    (hid : id < d.nextFile) : Versions (setFile id row d) := by
  constructor
  · intro k hk
    have hne : k ≠ id := Nat.ne_of_gt (Nat.lt_of_lt_of_le hid hk)
    rw [setFile_ne hne]
    exact hv.1 k hk
  · intro k j r hl
    by_cases hk : k = id
    · subst hk
      rw [setFile_self] at hl
      simp at hl
    · rw [setFile_ne hk] at hl ⊢
      exact hv.2 k j r hl

/-- Every statement keeps the versions of the rows in order. -/
theorem Effect.versions {i : ℕ} {d d' : Db} {pc : Pc} (he : Effect i d d' pc)
    (hv : Versions d) : Versions d' := by
  cases he with
  | same hf hn =>
      unfold Versions
      rw [hf, hn]
      exact hv
  | insert hd =>
      subst hd
      constructor
      · intro k hk
        have hlt : d.nextFile < k := hk
        rw [insertRow_ne (Nat.ne_of_gt hlt)]
        exact hv.1 k (Nat.le_of_lt hlt)
      · intro k j r hl
        by_cases hk : k = d.nextFile
        · subst hk
          rw [insertRow_self] at hl
          simp at hl
        · rw [insertRow_ne hk] at hl ⊢
          exact hv.2 k j r hl
  | setUpload _ hb hd => exact hd ▸ hv.setFile (hv.lt hb)
  | complete _ hb _ hd => exact hd ▸ hv.setFile (hv.lt hb)
  -- a lock is a draft equal to the committed row, a delete an empty one
  | @lock hours at₀ ids _ hd =>
      subst hd
      have happ : ∀ k, (lockAll i ids d).files k =
          if k ∈ ids then (d.files k).put i ((d.files k).view i) else d.files k :=
        fun _ => rfl
      constructor
      · intro k hk
        rw [happ]
        split <;> exact hv.1 k hk
      · intro k j r hl
        rw [happ] at hl ⊢
        split at hl
        · next hin =>
            rw [if_pos hin]
            simp only [Slot.put_lock, Option.some.injEq, Prod.mk.injEq] at hl
            exact hv.view hl.2
        · next hout =>
            rw [if_neg hout]
            exact hv.2 k j r hl
  | @delete rows hd =>
      subst hd
      constructor
      · intro k hk
        unfold Table.deleteAll
        change Slot.base (if k ∈ rows.map Prod.fst then _ else _) = none
        split <;> exact hv.1 k hk
      · intro k j r hl
        unfold Table.deleteAll at hl ⊢
        change Slot.lock (if k ∈ rows.map Prod.fst then _ else _) = _ at hl
        change Slot.base (if k ∈ rows.map Prod.fst then _ else _) = _
        split at hl
        · simp at hl
        · next hout =>
            rw [if_neg hout]
            exact hv.2 k j r hl
  | commit hd =>
      subst hd
      constructor
      · intro k hk
        change ((d.files k).commit i).base = none
        rw [Slot.commit_base]
        cases hw : (d.files k).view i with
        | none => rfl
        | some r =>
            have hb := hv.view hw
            rw [hv.1 k hk] at hb
            cases hb
      · intro k j r hl
        change ((d.files k).commit i).lock = _ at hl
        change ((d.files k).commit i).base = _
        by_cases hh : (d.files k).Held i
        · rw [Slot.commit_of_held hh] at hl
          simp at hl
        · rw [Slot.commit_of_not_held hh] at hl ⊢
          exact hv.2 k j r hl
  | rollback hd =>
      subst hd
      constructor
      · intro k hk
        change ((d.files k).rollback i).base = none
        rw [Slot.rollback_base]
        exact hv.1 k hk
      · intro k j r hl
        change ((d.files k).rollback i).lock = _ at hl
        change ((d.files k).rollback i).base = _
        by_cases hh : (d.files k).Held i
        · rw [Slot.rollback_of_held hh] at hl
          simp at hl
        · rw [Slot.rollback_of_not_held hh] at hl ⊢
          exact hv.2 k j r hl

/-! ## What happens to a committed row -/

/-- How the committed row of one id changes. -/
inductive RowChange (d d' : Db) (id : FileId) : Pc → Prop
  | keep {pc : Pc} : (d'.files id).base = (d.files id).base → RowChange d d' id pc
  | gone {pc : Pc} : (d'.files id).base = none → RowChange d d' id pc
  | insert {viewer : AccessClaims} {input : IntentInput} {ext : String}
      {plan : Option PartPlan} {key : Option String} :
      id = d.nextFile → d'.nextFile = d.nextFile + 1 →
      (d'.files id).base = some (newRow d viewer input ext plan key) →
      RowChange d d' id (.intentInsert viewer input ext plan key)
  | setUpload {row r : FileRow} {uploadId : UploadId} :
      (d.files id).base = some r →
      (d'.files id).base = some { r with uploadId := some uploadId } →
      RowChange d d' id (.intentUpdate id row uploadId)
  | complete {row r : FileRow} {head : ObjectHead} {magic : Bytes} :
      (d.files id).base = some r → r.status = .pending →
      (d'.files id).base = some { r with status := .completed, etag := some head.etag } →
      RowChange d d' id (.commitUpdate id row head magic)

/-- Every statement changes a row in one of the ways of `RowChange`, or leaves it. -/
theorem Effect.rowChange {i : ℕ} {d d' : Db} {pc : Pc} (he : Effect i d d' pc)
    (hv : Versions d) (id : FileId) : RowChange d d' id pc := by
  cases he with
  | same hf _ => exact .keep (by rw [hf])
  | insert hd =>
      subst hd
      by_cases hk : id = d.nextFile
      · subst hk
        exact .insert rfl rfl (by rw [insertRow_self, Slot.settled_base])
      · exact .keep (by rw [insertRow_ne hk])
  | @setUpload k row r u _ hb hd =>
      subst hd
      by_cases hk : id = k
      · subst hk
        exact .setUpload hb (by rw [setFile_self, Slot.settled_base])
      · exact .keep (by rw [setFile_ne hk])
  | @complete k row r head magic _ hb hp hd =>
      subst hd
      by_cases hk : id = k
      · subst hk
        exact .complete hb hp (by rw [setFile_self, Slot.settled_base])
      · exact .keep (by rw [setFile_ne hk])
  | @lock hours at₀ ids _ hd =>
      subst hd
      refine .keep ?_
      change Slot.base (if id ∈ ids then _ else _) = _
      split <;> rfl
  | @delete rows hd =>
      subst hd
      refine .keep ?_
      change Slot.base (if id ∈ rows.map Prod.fst then _ else _) = _
      split <;> rfl
  | commit hd =>
      subst hd
      have hbase : ((d.files id).commit i).base = (d.files id).view i := Slot.commit_base
      cases hw : (d.files id).view i with
      | none => exact .gone (hbase.trans hw)
      | some r => exact .keep ((hbase.trans hw).trans (hv.view hw).symm)
  | rollback hd =>
      subst hd
      exact .keep Slot.rollback_base

/-- The environment writes no row. -/
theorem env_files {h : Hashes} {d d' : Db} {e : Env} (he : env h d e = some d') :
    d'.files = d.files ∧ d'.nextFile = d.nextFile := by
  cases e with
  | upload url body =>
      simp only [env] at he
      split at he
      · cases he
        exact ⟨rfl, rfl⟩
      · cases he
  | tick dt =>
      cases he
      exact ⟨rfl, rfl⟩
  | lifecycle key u =>
      cases he
      exact ⟨rfl, rfl⟩

/-- The environment keeps the versions in order. -/
theorem Versions.env {h : Hashes} {d d' : Db} {e : Env} (he : env h d e = some d')
    (hv : Versions d) : Versions d' := by
  obtain ⟨hf, hn⟩ := env_files he
  unfold Versions
  rw [hf, hn]
  exact hv

/-- At the start there is no version. -/
theorem Versions.init {d : Db} (hd : Init d) : Versions d := by
  obtain ⟨hf, -⟩ := hd
  constructor
  · intro id _
    rw [hf id, Slot.settled_base]
  · intro id j r hl
    rw [hf id] at hl
    simp at hl

end Marketplace.Files
