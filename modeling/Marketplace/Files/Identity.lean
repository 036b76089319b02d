import Marketplace.Files.Effects
import Marketplace.Files.Steps

/-!
# Files.Identity — one file, one key, one upload

What the table, the bucket and the URLs owe to the INSERT a file began with. The history
`G` says, for each id drawn, which row was inserted, by which call, and which multipart
upload that call has created for it; it is part of the proof only.

* a row and the row a call carries are the inserted one, but for status, upload and ETag;
* two ids have two keys, and a file has one upload;
* an open upload and a URL belong to a file, and a part is a part of its plan.

`filed_reachable`: every reachable state has such a history.
-/

namespace Marketplace.Files

open Core Auth

/-! ## The history -/

/-- How a file began. -/
structure Birth where
  row : FileRow
  caller : ℕ
  upload : Option UploadId

/-- The files drawn so far, each with its beginning. -/
abbrev History := FileId → Option Birth

/-- The part `n` of the file `row` has this length. -/
def PartOf (row : FileRow) (n length : ℕ) : Prop :=
  ∃ plan : PartPlan, row.partSize = some plan.partSize ∧ row.partCount = some plan.partCount ∧
    1 ≤ n ∧ n ≤ plan.partCount ∧ length = partLength plan row.size n

/-- A row as `intent` inserts it: in parts above the threshold, by its plan. -/
def Planned (row : FileRow) : Prop :=
  if multipartThresholdBytes < row.size then
    ∃ plan, planParts row.size = .ok plan ∧ row.partSize = some plan.partSize ∧
      row.partCount = some plan.partCount
  else row.partSize = none ∧ row.partCount = none

/-- `row` is a later version of the row the file began with. -/
structure OfBirth (b : Birth) (row : FileRow) : Prop where
  same : row = { b.row with status := row.status, uploadId := row.uploadId, etag := row.etag }
  upload : ∀ u, row.uploadId = some u → b.upload = some u

/-- The file `id` has been inserted, and `row` is a version of it. -/
def Of (G : History) (id : FileId) (row : FileRow) : Prop := ∃ b, G id = some b ∧ OfBirth b row

/-- Everybody who knows the row has this upload in it. -/
def Uploading (d : Db) (id : FileId) (u : UploadId) : Prop :=
  ∀ r, (d.files id).base = some r → r.uploadId = some u

/-- What the history says of a call. -/
def FiledCall (G : History) (i : ℕ) (d : Db) : Pc → Prop
  | .intentInsert _ input _ plan _ =>
      if multipartThresholdBytes < input.size then
        ∃ p, planParts input.size = .ok p ∧ plan = some p
      else plan = none
  | .intentCreate id row =>
      ∃ b, G id = some b ∧ OfBirth b row ∧ b.caller = i ∧ b.upload = none
  | .intentUpdate id row u => ∃ b, G id = some b ∧ OfBirth b row ∧ b.upload = some u
  | .commitParts id row u | .commitComplete id row u _ =>
      Of G id row ∧ row.uploadId = some u ∧ Uploading d id u
  | .sign id row | .commitGone id row | .commitHead id row | .commitDelete id row _
  | .commitRead id row _ | .commitUpdate id row _ _ => Of G id row
  | _ => True

/-- What the history says of the rows. -/
structure FiledRows (G : History) (d : Db) : Prop where
  versions : Versions d
  rows : ∀ id r, (d.files id).base = some r → Of G id r
  drawn : ∀ id b, G id = some b → id < d.nextFile
  keys : ∀ id id' b b', G id = some b → G id' = some b' → b.row.key = b'.row.key → id = id'
  uuids : ∀ id b, G id = some b → b.row.key.uuid < d.nextUuid
  plans : ∀ id b, G id = some b → Planned b.row

/-- What the history says of the bucket. -/
structure FiledBucket (G : History) (b : Bucket) : Prop where
  made : ∀ id f u, G id = some f → f.upload = some u → u < b.nextUpload
  closed : ∀ u, b.nextUpload ≤ u → b.uploads u = none
  uploads : ∀ u up, b.uploads u = some up → ∃ id f, G id = some f ∧ up.key = f.row.key ∧
    ∀ k body, up.parts k = some body → PartOf f.row k body.length

/-- What the history says of the URLs. -/
def FiledUrls (G : History) (urls : List PresignedUrl) : Prop :=
  ∀ url ∈ urls, ∃ id f, G id = some f ∧ url.key = f.row.key ∧
    ∀ u k, url.kind = .part u k → PartOf f.row k url.contentLength

structure FiledDb (G : History) (d : Db) : Prop where
  rows : FiledRows G d
  bucket : FiledBucket G d.bucket
  urls : FiledUrls G d.urls

/-- The history accounts for a state. -/
def Filed (G : History) (s : St) : Prop :=
  FiledDb G s.shared ∧ ∀ i, FiledCall G i s.shared (s.proc i)

variable {G G' : History} {h : Hashes} {i j : ℕ} {d d' : Db} {pc pc' : Pc} {a : Stmt}
  {id : FileId} {row r : FileRow} {u : UploadId}

/-! ## Versions of one row -/

namespace OfBirth

variable {b : Birth}

theorem key (hb : OfBirth b row) : row.key = b.row.key := by rw [hb.same]

theorem size (hb : OfBirth b row) : row.size = b.row.size := by rw [hb.same]

theorem partSize (hb : OfBirth b row) : row.partSize = b.row.partSize := by rw [hb.same]

theorem partCount (hb : OfBirth b row) : row.partCount = b.row.partCount := by rw [hb.same]

/-- A row that gets the upload of its birth is still of that birth. -/
theorem setUpload (hb : OfBirth b row) (hu : b.upload = some u) :
    OfBirth b { row with uploadId := some u } where
  same := by
    rw [hb.same]
  upload u' hu' := by
    cases hu'
    exact hu

/-- A row that is completed is still of its birth. -/
theorem complete (hb : OfBirth b row) (etag : ETag) :
    OfBirth b { row with status := .completed, etag := some etag } where
  same := by
    rw [hb.same]
  upload := hb.upload

theorem partOf {n len : ℕ} (hb : OfBirth b row) : PartOf row n len ↔ PartOf b.row n len := by
  unfold PartOf
  rw [hb.partSize, hb.partCount, hb.size]

/-- A row of a birth has the parts planned at it. -/
theorem planned (hb : OfBirth b row) (hp : Planned b.row) : Planned row := by
  unfold Planned at hp ⊢
  rw [hb.partSize, hb.partCount, hb.size]
  exact hp

end OfBirth

/-- Rows of one key are rows of one file. -/
theorem FiledRows.sameId {id' : FileId} {row' : FileRow} (hf : FiledRows G d)
    (ho : Of G id row) (ho' : Of G id' row') (hk : row.key = row'.key) : id = id' := by
  obtain ⟨b, hb, hof⟩ := ho
  obtain ⟨b', hb', hof'⟩ := ho'
  refine hf.keys id id' b b' hb hb' ?_
  rw [← hof.key, ← hof'.key]
  exact hk

/-! ## How the history goes on -/

/-- The files drawn so far keep their row and their creator, and their upload once they
have one; only their creator gives them one. -/
def Continues (i : ℕ) (G G' : History) : Prop :=
  ∀ id b, G id = some b → ∃ b', G' id = some b' ∧ b'.row = b.row ∧ b'.caller = b.caller ∧
    (∀ u, b.upload = some u → b'.upload = some u) ∧ (b.caller ≠ i → b' = b)

theorem Continues.refl (i : ℕ) (G : History) : Continues i G G :=
  fun _ b hb => ⟨b, hb, rfl, rfl, fun _ hu => hu, fun _ => rfl⟩

/-- A file of the history stays one as the history goes on. -/
theorem Continues.of (hc : Continues i G G') (ho : Of G id row) : Of G' id row := by
  obtain ⟨b, hb, hof⟩ := ho
  obtain ⟨b', hb', hrow, -, hup, -⟩ := hc id b hb
  refine ⟨b', hb', ?_, ?_⟩
  · rw [hrow]
    exact hof.same
  · intro u hu
    exact hup u (hof.upload u hu)

/-- A new file. -/
theorem Continues.insert (b : Birth) (hid : G id = none) :
    Continues i G (Function.update G id (some b)) := by
  intro k b' hb'
  have hne : k ≠ id := by
    rintro rfl
    rw [hid] at hb'
    cases hb'
  refine ⟨b', ?_, rfl, rfl, fun _ hu => hu, fun _ => rfl⟩
  rw [Function.update_of_ne hne]
  exact hb'

/-- The upload of a file that has none yet, by its creator. -/
theorem Continues.create {b : Birth} (u : UploadId) (hb : G id = some b)
    (hcaller : b.caller = i) (hnone : b.upload = none) :
    Continues i G (Function.update G id (some { b with upload := some u })) := by
  intro k b' hb'
  by_cases hk : k = id
  · subst hk
    rw [hb] at hb'
    cases hb'
    refine ⟨{ b with upload := some u }, Function.update_self .., rfl, rfl, ?_, ?_⟩
    · intro v hv
      rw [hnone] at hv
      cases hv
    · intro hne
      exact absurd hcaller hne
  · refine ⟨b', ?_, rfl, rfl, fun _ hu => hu, fun _ => rfl⟩
    rw [Function.update_of_ne hk]
    exact hb'

/-- The committed rows keep the upload that the history gives them. -/
theorem Uploading.effect {b : Birth} (he : Effect i d d' pc) (hf : FiledRows G d)
    (hcall : FiledCall G i d pc) (hb : G id = some b) (hu : b.upload = some u)
    (hup : Uploading d id u) : Uploading d' id u := by
  intro r' hr'
  cases he.rowChange hf.versions id with
  | keep heq => exact hup r' (heq ▸ hr')
  | gone heq =>
      rw [heq] at hr'
      cases hr'
  | insert heq _ _ => exact absurd heq (Nat.ne_of_lt (hf.drawn id b hb))
  | setUpload _ heq =>
      -- the upload that is recorded now is the one in the history
      rw [heq] at hr'
      cases hr'
      obtain ⟨b', hb', -, hu'⟩ := hcall
      rw [hb] at hb'
      cases hb'
      rw [hu] at hu'
      exact hu'.symm
  | @complete _ r _ _ hb₀ _ heq =>
      rw [heq] at hr'
      cases hr'
      exact hup r hb₀

/-- The calls that take no step keep what the history says of them. -/
theorem FiledCall.other (hc : Continues i G G')
    (hup : ∀ id b u, G id = some b → b.upload = some u → Uploading d id u → Uploading d' id u)
    (hne : j ≠ i) (hk : FiledCall G j d pc) : FiledCall G' j d' pc := by
  cases pc with
  | intentInsert _ _ _ _ _ => exact hk
  | intentCreate id row =>
      obtain ⟨b, hb, hof, hcaller, hnone⟩ := hk
      obtain ⟨b', hb', -, -, -, hsame⟩ := hc id b hb
      have heq : b' = b := hsame (by rw [hcaller]; exact hne)
      subst heq
      exact ⟨b', hb', hof, hcaller, hnone⟩
  | intentUpdate id row u =>
      obtain ⟨b, hb, hof, hu⟩ := hk
      obtain ⟨b', hb', hrow, -, hkeep, -⟩ := hc id b hb
      refine ⟨b', hb', ⟨?_, fun v hv => hkeep v (hof.upload v hv)⟩, hkeep u hu⟩
      rw [hrow]
      exact hof.same
  | commitParts id row u | commitComplete id row u _ =>
      obtain ⟨ho, hrow, hupl⟩ := hk
      obtain ⟨b, hb, hof⟩ := ho
      exact ⟨hc.of ⟨b, hb, hof⟩, hrow, hup id b u hb (hof.upload u hrow) hupl⟩
  | sign id row | commitGone id row | commitHead id row | commitDelete id row _
  | commitRead id row _ | commitUpdate id row _ _ => exact hc.of hk
  | _ => trivial

/-! ## The next fact of the call that steps -/

theorem Pc.Refused.filed (h : pc.Refused) : FiledCall G i d pc := by
  obtain ⟨err, rfl⟩ := h
  trivial

/-- A row that was found is a file of the history. -/
theorem Found.filed (hf : FiledRows G d) (h : Found d pc) : FiledCall G i d pc := by
  obtain ⟨id, row, hb, ⟨-, rfl⟩ | rfl⟩ := h
  · trivial
  · exact hf.rows id row hb

/-- The checks of an intent have no file in hand yet. -/
theorem intentChecks_filed (G : History) (i : ℕ) (d : Db) (viewer : AccessClaims)
    (input : IntentInput) (key : Option String) :
    FiledCall G i d (intentChecks viewer input key) := by
  rcases intentChecks_cases viewer input key with href | ⟨ext, plan, hins, hplan⟩
  · exact href.filed
  · rw [hins]
    exact hplan

/-- A commit that goes on has a file of the history in hand. -/
theorem commitFind_filed (hf : FiledRows G d) (i : ℕ) (viewer : AccessClaims) (id : FileId) :
    FiledCall G i d (commitFind d viewer id) := by
  rcases commitFind_cases d viewer id with
    href | ⟨row, hb, ⟨-, heq⟩ | ⟨u, hu, heq⟩ | heq⟩
  · exact href.filed
  · rw [heq]
    trivial
  · rw [heq]
    refine ⟨hf.rows id row hb, hu, ?_⟩
    intro r hr
    rw [hb] at hr
    cases hr
    exact hu
  · rw [heq]
    exact hf.rows id row hb

/-- After listing the parts a commit has the same file in hand. -/
theorem commitParts_filed (hk : FiledCall G i d (.commitParts id row u)) :
    FiledCall G i d (commitParts h d id row u) := by
  rcases commitParts_cases h d id row u with href | heq | ⟨parts, heq⟩
  · exact href.filed
  · rw [heq]
    exact hk.1
  · rw [heq]
    exact hk

/-- After the HEAD a commit has the same file in hand. -/
theorem commitHead_filed (hk : FiledCall G i d (.commitHead id row)) :
    FiledCall G i d (commitHead d id row) := by
  rcases commitHead_cases d id row with href | ⟨err, heq⟩ | ⟨head, -, -, heq⟩
  · exact href.filed
  · rw [heq]
    exact hk
  · rw [heq]
    exact hk

/-- After reading the first bytes a commit has the same file in hand. -/
theorem commitRead_filed {head : ObjectHead} (hk : FiledCall G i d (.commitRead id row head)) :
    FiledCall G i d (commitRead d id row head) := by
  rcases commitRead_cases d id row head with href | ⟨err, heq⟩ | ⟨magic, -, -, heq⟩
  · exact href.filed
  · rw [heq]
    exact hk
  · rw [heq]
    exact hk

/-- A sweep has no single file in hand. -/
theorem sweepNext_filed (G : History) (i : ℕ) (d : Db) (rest rows : List (FileId × FileRow)) :
    FiledCall G i d (sweepNext rest rows) := by
  unfold sweepNext
  split
  · split <;> trivial
  · split <;> trivial

/-- After completing a commit has the same file in hand. -/
theorem commitComplete_filed {parts : List UploadedPart}
    (hk : FiledCall G i d (.commitComplete id row u parts)) :
    FiledCall G i d' (commitComplete h d id row u parts).2 := by
  rcases commitComplete_cases h d id row u parts with href | heq
  · exact href.filed
  · rw [heq]
    exact hk.1

theorem commitComplete_same (h : Hashes) (d : Db) (id : FileId) (row : FileRow) (u : UploadId)
    (parts : List UploadedPart) :
    (commitComplete h d id row u parts).1.nextFile = d.nextFile ∧
    (commitComplete h d id row u parts).1.nextUuid = d.nextUuid ∧
    (commitComplete h d id row u parts).1.urls = d.urls := by
  unfold commitComplete
  split <;> exact ⟨rfl, rfl, rfl⟩

/-- Signing draws no ids. -/
theorem signFor_same (h : Hashes) (d : Db) (id : FileId) (row : FileRow) :
    (signFor h d id row).1.nextFile = d.nextFile ∧
    (signFor h d id row).1.nextUuid = d.nextUuid := by
  unfold signFor
  split
  · exact ⟨rfl, rfl⟩
  · split <;> exact ⟨rfl, rfl⟩

/-- Signing ends the call. -/
theorem signFor_filed (h : Hashes) (d : Db) (id : FileId) (row : FileRow) :
    FiledCall G i d' (signFor h d id row).2 := by
  rcases signFor_cases h d id row with href | ⟨url, heq⟩ | ⟨ps, pn, uploaded, urls, heq⟩
  · exact href.filed
  · rw [heq]
    trivial
  · rw [heq]
    trivial

/-- The row an intent writes has the parts planned for its size. -/
theorem newRow_planned {viewer : AccessClaims} {input : IntentInput} {ext : String}
    {plan : Option PartPlan} {key : Option String}
    (hk : FiledCall G i d (.intentInsert viewer input ext plan key)) :
    Planned (newRow d viewer input ext plan key) := by
  change if multipartThresholdBytes < input.size then _ else _
  change if multipartThresholdBytes < input.size then _ else _ at hk
  by_cases hmulti : multipartThresholdBytes < input.size
  · rw [if_pos hmulti] at hk ⊢
    obtain ⟨p, hp, rfl⟩ := hk
    exact ⟨p, hp, rfl, rfl⟩
  · rw [if_neg hmulti] at hk ⊢
    subst hk
    exact ⟨rfl, rfl⟩

/-! ## The bucket -/

/-- Uploads that are dropped, and nothing new. -/
theorem FiledBucket.shrink {b b' : Bucket} (hb : FiledBucket G b)
    (hnext : b'.nextUpload = b.nextUpload)
    (hup : ∀ u, b'.uploads u = none ∨ b'.uploads u = b.uploads u) : FiledBucket G b' where
  made id f u hf hu := hnext ▸ hb.made id f u hf hu
  closed u hu := by
    rcases hup u with hnone | hsame
    · exact hnone
    · rw [hsame]
      exact hb.closed u (hnext ▸ hu)
  uploads u up hu := by
    rcases hup u with hnone | hsame
    · rw [hnone] at hu
      cases hu
    · exact hb.uploads u up (hsame ▸ hu)

/-- Taking an entry out leaves the others as they were. -/
theorem update_none_shrinks {α β : Type} [DecidableEq α] (f : α → Option β) (u k : α) :
    Function.update f u none k = none ∨ Function.update f u none k = f k := by
  by_cases hk : k = u
  · subst hk
    exact Or.inl (Function.update_self ..)
  · exact Or.inr (Function.update_of_ne hk ..)

/-- An abort draws no upload, and takes one away or none. -/
theorem abortMultipart_shrinks (key : ObjectKey) (u : UploadId) (b : Bucket) :
    (b.abortMultipart key u).nextUpload = b.nextUpload ∧
    ∀ k, (b.abortMultipart key u).uploads k = none ∨
      (b.abortMultipart key u).uploads k = b.uploads k := by
  unfold Bucket.abortMultipart
  split
  · exact ⟨rfl, fun _ => Or.inr rfl⟩
  · exact ⟨rfl, update_none_shrinks b.uploads u⟩

/-- An upload found under a key is there and is of that key. -/
theorem openUpload_some {b : Bucket} {key : ObjectKey} {up : Upload}
    (h : b.openUpload key u = some up) : b.uploads u = some up ∧ up.key = key := by
  unfold Bucket.openUpload at h
  rw [Option.filter_eq_some_iff] at h
  exact ⟨h.1, by simpa using h.2⟩

/-- A part, uploaded through a URL of its file. -/
theorem FiledBucket.putPart {k : ℕ} {b : Bucket} {f : Birth} {key : ObjectKey} {body : Bytes}
    (hb : FiledBucket G b) (hkeys : ∀ id id' f f', G id = some f → G id' = some f' →
      f.row.key = f'.row.key → id = id')
    (hid : G id = some f) (hkey : key = f.row.key) (hpart : PartOf f.row k body.length) :
    FiledBucket G (b.putPart key u k body) := by
  unfold Bucket.putPart
  split
  · exact hb
  -- the upload is one of this file, and the part is one that was planned
  · next up hup =>
      obtain ⟨hu, hupkey⟩ := openUpload_some hup
      refine ⟨hb.made, ?_, ?_⟩
      · intro v hv
        have hne : v ≠ u := by
          rintro rfl
          rw [hb.closed v hv] at hu
          cases hu
        change Function.update b.uploads u _ v = none
        rw [Function.update_of_ne hne]
        exact hb.closed v hv
      · intro v up' hv
        change Function.update b.uploads u _ v = some up' at hv
        by_cases hvu : v = u
        · subst hvu
          rw [Function.update_self] at hv
          cases hv
          -- the upload belongs to the file of its key, which is the file of the URL
          obtain ⟨id', f', hid', hkey', hparts⟩ := hb.uploads v up hu
          have heq : id' = id := hkeys id' id f' f hid' hid (by rw [← hkey', hupkey, hkey])
          subst heq
          rw [hid] at hid'
          cases hid'
          refine ⟨id', f, hid, hkey', ?_⟩
          intro m body' hm
          by_cases hmk : m = k
          · subst hmk
            change Function.update up.parts m _ m = _ at hm
            rw [Function.update_self] at hm
            cases hm
            exact hpart
          · change Function.update up.parts k _ m = _ at hm
            rw [Function.update_of_ne hmk] at hm
            exact hparts m body' hm
        · rw [Function.update_of_ne hvu] at hv
          exact hb.uploads v up' hv

/-- The history goes on, and creates no upload. -/
theorem FiledBucket.mono {b : Bucket} (hb : FiledBucket G b) (hc : Continues i G G')
    (hmade : ∀ id f u, G' id = some f → f.upload = some u → u < b.nextUpload) :
    FiledBucket G' b where
  made := hmade
  closed := hb.closed
  uploads u up hu := by
    obtain ⟨id, f, hid, hkey, hparts⟩ := hb.uploads u up hu
    obtain ⟨f', hid', hrow, -⟩ := hc id f hid
    refine ⟨id, f', hid', ?_, ?_⟩
    · rw [hrow]
      exact hkey
    · intro k body hk
      rw [hrow]
      exact hparts k body hk

/-- A new upload, for a file that has none yet. -/
theorem FiledBucket.create {b : Bucket} {f : Birth} {key : ObjectKey}
    (hb : FiledBucket G b) (hid : G id = some f) (hkey : key = f.row.key)
    (hnone : f.upload = none) :
    FiledBucket (Function.update G id (some { f with upload := some b.nextUpload }))
      (b.createMultipart key).1 := by
  have hc : Continues f.caller G
      (Function.update G id (some { f with upload := some b.nextUpload })) :=
    Continues.create b.nextUpload hid rfl hnone
  refine ⟨?_, ?_, ?_⟩
  · intro k f' u hk hu
    change u < b.nextUpload + 1
    by_cases hki : k = id
    · subst hki
      rw [Function.update_self] at hk
      cases hk
      cases hu
      exact Nat.lt_succ_self _
    · rw [Function.update_of_ne hki] at hk
      exact Nat.lt_succ_of_lt (hb.made k f' u hk hu)
  · intro u hu
    have hlt : b.nextUpload < u := hu
    change Function.update b.uploads b.nextUpload _ u = none
    rw [Function.update_of_ne (Nat.ne_of_gt hlt)]
    exact hb.closed u (Nat.le_of_lt hlt)
  · intro u up hu
    change Function.update b.uploads b.nextUpload _ u = some up at hu
    -- the upload is new; all others belong to their files as before
    by_cases hun : u = b.nextUpload
    · subst hun
      rw [Function.update_self] at hu
      cases hu
      exact ⟨id, _, Function.update_self .., hkey, nofun⟩
    · rw [Function.update_of_ne hun] at hu
      obtain ⟨k, f', hk, hkey', hparts⟩ := hb.uploads u up hu
      obtain ⟨f'', hk', hrow, -⟩ := hc k f' hk
      refine ⟨k, f'', hk', ?_, ?_⟩
      · rw [hrow]
        exact hkey'
      · intro m body hm
        rw [hrow]
        exact hparts m body hm

/-- URLs of files of the history stay so as it goes on. -/
theorem FiledUrls.mono {urls : List PresignedUrl} (hu : FiledUrls G urls)
    (hc : Continues i G G') : FiledUrls G' urls := by
  intro url hurl
  obtain ⟨id, f, hid, hkey, hparts⟩ := hu url hurl
  obtain ⟨f', hid', hrow, -⟩ := hc id f hid
  refine ⟨id, f', hid', ?_, ?_⟩
  · rw [hrow]
    exact hkey
  · intro u k hk
    rw [hrow]
    exact hparts u k hk

/-! ## The URLs -/

/-- `signFor` hands out URLs for the parts of the file's plan. -/
theorem signFor_urls (hf : FiledRows G d) (ho : Of G id row) (hu : FiledUrls G d.urls) :
    FiledUrls G (signFor h d id row).1.urls := by
  obtain ⟨b, hb, hof⟩ := ho
  unfold signFor
  split
  · intro url hurl
    rcases List.mem_cons.mp hurl with rfl | hold
    · refine ⟨id, b, hb, hof.key, ?_⟩
      intro u k hk
      cases hk
    · exact hu url hold
  -- one URL for each part that is missing
  · next uploadId hup =>
      split
      · exact hu
      · intro url hurl
        rcases List.mem_append.mp hurl with hnew | hold
        · obtain ⟨k, hk, rfl⟩ := List.mem_map.mp hnew
          refine ⟨id, b, hb, hof.key, ?_⟩
          intro u m hm
          cases hm
          have hmem := List.mem_of_mem_filter hk
          have hrange := List.mem_range'_1.mp hmem
          have hge : 1 ≤ k := hrange.1
          -- a row that has no plan has no parts to sign
          have hplan := hof.planned (hf.plans id b hb)
          unfold Planned at hplan
          split at hplan
          · obtain ⟨plan, -, hsize, hcount⟩ := hplan
            rw [hcount, Option.getD_some] at hrange
            have hle : k < 1 + plan.partCount := hrange.2
            refine hof.partOf.mp ⟨plan, hsize, hcount, hge, by omega, ?_⟩
            rw [hsize, hcount]
            rfl
          · rw [hplan.2, Option.getD_none] at hrange
            have hle : k < 1 + 0 := hrange.2
            omega
        · exact hu url hold

/-! ## One statement -/

/-- The INSERT: one more file, under a key of its own. -/
theorem FiledDb.insert {viewer : AccessClaims} {input : IntentInput} {ext : String}
    {plan : Option PartPlan} {key : Option String} (hf : FiledDb G d)
    (hk : FiledCall G i d (.intentInsert viewer input ext plan key)) :
    FiledDb (Function.update G d.nextFile (some ⟨newRow d viewer input ext plan key, i, none⟩))
      (insertRow d (newRow d viewer input ext plan key)) := by
  have hnone : G d.nextFile = none := by
    cases hG : G d.nextFile with
    | none => rfl
    | some b => exact absurd (hf.rows.drawn _ b hG) (Nat.lt_irrefl _)
  have hc : Continues i G (Function.update G d.nextFile
      (some ⟨newRow d viewer input ext plan key, i, none⟩)) := Continues.insert _ hnone
  -- what is drawn is the new file or was drawn before
  have hcases : ∀ id b, Function.update G d.nextFile
      (some ⟨newRow d viewer input ext plan key, i, none⟩) id = some b →
      G id = some b ∧ id < d.nextFile ∨
        id = d.nextFile ∧ b = ⟨newRow d viewer input ext plan key, i, none⟩ := by
    intro id b hb
    by_cases hid : id = d.nextFile
    · subst hid
      rw [Function.update_self] at hb
      cases hb
      exact Or.inr ⟨rfl, rfl⟩
    · rw [Function.update_of_ne hid] at hb
      exact Or.inl ⟨hb, hf.rows.drawn id b hb⟩
  -- the uuid is drawn now, so no earlier key holds it
  have hfresh : ∀ id b, G id = some b →
      b.row.key ≠ (newRow d viewer input ext plan key).key := by
    intro id b hb heq
    have hlt := hf.rows.uuids id b hb
    rw [heq] at hlt
    exact Nat.lt_irrefl _ hlt
  refine ⟨⟨?_, ?_, ?_, ?_, ?_, ?_⟩, ?_, ?_⟩
  · exact (Effect.insert (i := i) rfl).versions hf.rows.versions
  · intro id r hr
    by_cases hid : id = d.nextFile
    · subst hid
      rw [insertRow_self, Slot.settled_base] at hr
      cases hr
      exact ⟨_, Function.update_self .., rfl, nofun⟩
    · rw [insertRow_ne hid] at hr
      exact hc.of (hf.rows.rows id r hr)
  · intro id b hb
    rcases hcases id b hb with ⟨-, hlt⟩ | ⟨rfl, -⟩
    · exact Nat.lt_succ_of_lt hlt
    · exact Nat.lt_succ_self _
  · intro id id' b b' hb hb' hkey
    rcases hcases id b hb with ⟨h₁, -⟩ | ⟨rfl, rfl⟩
    · rcases hcases id' b' hb' with ⟨h₂, -⟩ | ⟨rfl, rfl⟩
      · exact hf.rows.keys id id' b b' h₁ h₂ hkey
      · exact absurd hkey (hfresh id b h₁)
    · rcases hcases id' b' hb' with ⟨h₂, -⟩ | ⟨rfl, -⟩
      · exact absurd hkey.symm (hfresh id' b' h₂)
      · rfl
  · intro id b hb
    change _ < d.nextUuid + 1
    rcases hcases id b hb with ⟨h₁, -⟩ | ⟨-, rfl⟩
    · exact Nat.lt_succ_of_lt (hf.rows.uuids id b h₁)
    · exact Nat.lt_succ_self _
  · intro id b hb
    rcases hcases id b hb with ⟨h₁, -⟩ | ⟨-, rfl⟩
    · exact hf.rows.plans id b h₁
    · exact newRow_planned hk
  · refine hf.bucket.mono hc ?_
    intro id f u hid hu
    rcases hcases id f hid with ⟨h₁, -⟩ | ⟨-, rfl⟩
    · exact hf.bucket.made id f u h₁ hu
    · cases hu
  · exact hf.urls.mono hc

/-- A statement that is no INSERT leaves the rows to the history's files. -/
theorem FiledRows.effect (he : Effect i d d' pc) (hf : FiledRows G d) (hk : FiledCall G i d pc)
    (hn : d'.nextFile = d.nextFile) (hu : d'.nextUuid = d.nextUuid) : FiledRows G d' := by
  refine ⟨he.versions hf.versions, ?_, hn ▸ hf.drawn, hf.keys, hu ▸ hf.uuids, hf.plans⟩
  intro id r' hr'
  cases he.rowChange hf.versions id with
  | keep heq => exact hf.rows id r' (heq ▸ hr')
  | gone heq =>
      rw [heq] at hr'
      cases hr'
  | insert _ hnext _ =>
      rw [hn] at hnext
      exact absurd hnext (Nat.ne_of_lt (Nat.lt_succ_self _))
  | @setUpload row r u hb₀ heq =>
      rw [heq] at hr'
      cases hr'
      obtain ⟨b, hb, hof⟩ := hf.rows id r hb₀
      obtain ⟨b', hb', -, hu'⟩ := hk
      rw [hb] at hb'
      cases hb'
      exact ⟨b, hb, hof.setUpload hu'⟩
  | @complete row r head magic hb₀ _ heq =>
      rw [heq] at hr'
      cases hr'
      obtain ⟨b, hb, hof⟩ := hf.rows id r hb₀
      exact ⟨b, hb, hof.complete head.etag⟩

/-- A statement that creates no upload. -/
theorem Stored.filed (hs : Stored d d' pc) (hb : FiledBucket G d.bucket)
    (hne : ∀ id row, pc ≠ .intentCreate id row) : FiledBucket G d'.bucket := by
  cases hs with
  | same heq => exact heq ▸ hb
  | create _ => exact absurd rfl (hne _ _)
  | complete _ heq =>
      refine hb.shrink ?_ ?_
      · rw [heq]
      · rw [heq]
        exact update_none_shrinks d.bucket.uploads _
  | delete _ heq => exact hb.shrink (by rw [heq]; rfl) fun u => Or.inr (by rw [heq]; rfl)
  | @abort _ row u _ _ heq =>
      have hshrink := abortMultipart_shrinks row.key u d.bucket
      exact heq ▸ hb.shrink hshrink.1 hshrink.2

/-- One statement: the history goes on, and accounts for what the statement did. -/
theorem filed_step (hst : stmt h i d pc a = some (d', pc')) (hf : FiledDb G d)
    (hk : FiledCall G i d pc) :
    ∃ G', Continues i G G' ∧ FiledDb G' d' ∧ FiledCall G' i d' pc' := by
  have he := stmt_effect hst
  have hd : Does h i d pc a d' pc' := stmt_does hst
  have hstored := hd.stored
  -- most statements draw nothing, create no upload and hand out no URL
  have keep : d'.nextFile = d.nextFile → d'.nextUuid = d.nextUuid →
      FiledBucket G d'.bucket → FiledUrls G d'.urls → FiledCall G i d' pc' →
      ∃ G', Continues i G G' ∧ FiledDb G' d' ∧ FiledCall G' i d' pc' := by
    intro hn hu hb hurls hk'
    exact ⟨G, Continues.refl i G, ⟨hf.rows.effect he hk hn hu, hb, hurls⟩, hk'⟩
  cases hd with
  | intent => exact keep rfl rfl hf.bucket hf.urls (intentChecks_filed G i _ _ _ _)
  | @insert viewer input ext plan key row hrow _ =>
      subst hrow
      have hnone : G d.nextFile = none := by
        cases hG : G d.nextFile with
        | none => rfl
        | some b => exact absurd (hf.rows.drawn _ b hG) (Nat.lt_irrefl _)
      refine ⟨_, Continues.insert ⟨newRow d viewer input ext plan key, i, none⟩ hnone,
        hf.insert hk, ?_⟩
      split
      · exact ⟨_, Function.update_self .., ⟨rfl, nofun⟩, rfl, rfl⟩
      · exact ⟨_, Function.update_self .., rfl, nofun⟩
  | find =>
      exact keep rfl rfl hf.bucket hf.urls
        ((intentFind_cases _ _ _ _).elim Pc.Refused.filed (Found.filed hf.rows))
  | @create id row =>
      obtain ⟨b, hb, hof, hcaller, hnone⟩ := hk
      have hc := Continues.create d.bucket.nextUpload hb hcaller hnone
      -- the files are those drawn before, with the same rows
      have hback : ∀ k f', Function.update G id (some { b with
          upload := some d.bucket.nextUpload }) k = some f' →
          ∃ f, G k = some f ∧ f'.row = f.row := by
        intro k f' hk
        by_cases hki : k = id
        · subst hki
          rw [Function.update_self] at hk
          cases hk
          exact ⟨b, hb, rfl⟩
        · rw [Function.update_of_ne hki] at hk
          exact ⟨f', hk, rfl⟩
      refine ⟨_, hc, ⟨⟨?_, ?_, ?_, ?_, ?_, ?_⟩, ?_, ?_⟩, ?_⟩
      · exact ⟨hf.rows.versions.1, hf.rows.versions.2⟩
      · intro k r hr
        exact hc.of (hf.rows.rows k r hr)
      · intro k f' hk
        obtain ⟨f, hk, -⟩ := hback k f' hk
        exact hf.rows.drawn k f hk
      · intro k k' f f' hk hk' hkey
        obtain ⟨g, hg, hrow⟩ := hback k f hk
        obtain ⟨g', hg', hrow'⟩ := hback k' f' hk'
        rw [hrow, hrow'] at hkey
        exact hf.rows.keys k k' g g' hg hg' hkey
      · intro k f' hk
        obtain ⟨f, hk, hrow⟩ := hback k f' hk
        rw [hrow]
        exact hf.rows.uuids k f hk
      · intro k f' hk
        obtain ⟨f, hk, hrow⟩ := hback k f' hk
        rw [hrow]
        exact hf.rows.plans k f hk
      · exact hf.bucket.create hb hof.key hnone
      · exact hf.urls.mono hc
      · refine ⟨_, Function.update_self .., ⟨hof.same, ?_⟩, rfl⟩
        intro u hu
        rw [hof.upload u hu] at hnone
        cases hnone
  | @setUpload id row r u _ _ =>
      obtain ⟨b, hb, hof, hu⟩ := hk
      exact keep rfl rfl hf.bucket hf.urls ⟨b, hb, hof.setUpload hu⟩
  | setNothing _ =>
      obtain ⟨b, hb, hof, hu⟩ := hk
      exact keep rfl rfl hf.bucket hf.urls ⟨b, hb, hof.setUpload hu⟩
  | @sign id row =>
      obtain ⟨hn, hu⟩ := signFor_same h d id row
      exact keep hn hu (signFor_bucket h d id row ▸ hf.bucket) (signFor_urls hf.rows hk hf.urls)
        (signFor_filed h d id row)
  | resumeFind =>
      exact keep rfl rfl hf.bucket hf.urls
        ((resumeFind_cases _ _ _).elim Pc.Refused.filed (Found.filed hf.rows))
  | commitFind => exact keep rfl rfl hf.bucket hf.urls (commitFind_filed hf.rows i _ _)
  | parts => exact keep rfl rfl hf.bucket hf.urls (commitParts_filed hk)
  | gone =>
      refine keep rfl rfl hf.bucket hf.urls ?_
      split
      · exact hk
      · trivial
  | @complete id row u parts =>
      obtain ⟨hn, hu, hurls⟩ := commitComplete_same h d id row u parts
      exact keep hn hu (hstored.filed hf.bucket nofun) (hurls ▸ hf.urls) (commitComplete_filed hk)
  | head => exact keep rfl rfl hf.bucket hf.urls (commitHead_filed hk)
  | read => exact keep rfl rfl hf.bucket hf.urls (commitRead_filed hk)
  | select _ => exact keep rfl rfl hf.bucket hf.urls (sweepNext_filed G i _ _ _)
  | delete => exact keep rfl rfl (hstored.filed hf.bucket nofun) hf.urls trivial
  | sweepAbort _ => exact keep rfl rfl (hstored.filed hf.bucket nofun) hf.urls trivial
  | sweepObject =>
      exact keep rfl rfl (hstored.filed hf.bucket nofun) hf.urls (sweepNext_filed G i _ _ _)
  | sweepObjectError => exact keep rfl rfl hf.bucket hf.urls (sweepNext_filed G i _ _ _)
  | _ => exact keep rfl rfl hf.bucket hf.urls trivial

/-- The clock, the clients and the lifecycle rule need no new history. -/
theorem env_filed {e : Env} (he : env h d e = some d') (hf : FiledDb G d) : FiledDb G d' := by
  obtain ⟨hv, hr, hdrawn, hkeys, huuids, hplans⟩ := hf.rows
  cases e with
  | tick dt =>
      cases he
      exact ⟨⟨hv, hr, hdrawn, hkeys, huuids, hplans⟩, hf.bucket, hf.urls⟩
  | upload url body =>
      simp only [env] at he
      split at he
      · next hurl =>
          cases he
          refine ⟨⟨hv, hr, hdrawn, hkeys, huuids, hplans⟩, ?_, hf.urls⟩
          obtain ⟨id, f, hid, hkey, hparts⟩ := hf.urls url hurl.1
          change FiledBucket G (d.bucket.usePresigned h url body)
          unfold Bucket.usePresigned
          split
          · exact hf.bucket.shrink rfl fun _ => Or.inr rfl
          · next u k hk =>
              refine hf.bucket.putPart hkeys hid hkey ?_
              rw [hurl.2.2]
              exact hparts u k hk
      · cases he
  | lifecycle key u =>
      cases he
      have hshrink := abortMultipart_shrinks key u d.bucket
      exact ⟨⟨hv, hr, hdrawn, hkeys, huuids, hplans⟩, hf.bucket.shrink hshrink.1 hshrink.2,
        hf.urls⟩

/-- The environment leaves a call with the file it has in hand. -/
theorem FiledCall.env {e : Env} (he : env h d e = some d') (hk : FiledCall G i d pc) :
    FiledCall G i d' pc := by
  obtain ⟨hfiles, -⟩ := env_files he
  have hup : ∀ {id : FileId} {u : UploadId}, Uploading d id u → Uploading d' id u := by
    intro id u hup r hr
    rw [hfiles] at hr
    exact hup r hr
  cases pc with
  | commitParts id row u | commitComplete id row u _ => exact ⟨hk.1, hk.2.1, hup hk.2.2⟩
  | _ => exact hk

/-! ## Every run -/

/-- At the start the history is empty. -/
theorem filed_init {s : St} (hinit : (machine h).Init s) : Filed (fun _ => none) s := by
  have hv := Versions.init hinit.1
  obtain ⟨⟨hfiles, -, hups, hurls⟩, hidle⟩ := hinit
  have hno : ∀ {P : Prop} (id : FileId) (b : Birth), (fun _ => none : History) id = some b → P := by
    intro P id b hb
    cases hb
  refine ⟨⟨⟨hv, ?_, ?_, ?_, ?_, ?_⟩, ⟨?_, fun u _ => hups u, ?_⟩, ?_⟩, ?_⟩
  · intro id r hr
    rw [hfiles id, Slot.settled_base] at hr
    cases hr
  · intro id b hb
    exact hno id b hb
  · intro id id' b b' hb
    exact hno id b hb
  · intro id b hb
    exact hno id b hb
  · intro id b hb
    exact hno id b hb
  · intro id f u hf
    exact hno id f hf
  · intro u up hu
    rw [hups u] at hu
    cases hu
  · intro url hurl
    rw [hurls] at hurl
    cases hurl
  · intro i
    rw [hidle i]
    trivial

/-- Every reachable state has a history. -/
theorem filed_reachable {s : St} (hs : (machine h).Reachable s) : ∃ G, Filed G s := by
  refine Machine.Reachable.invariant (P := fun s => ∃ G, Filed G s) ?_ ?_ hs
  · intro s hinit
    exact ⟨_, filed_init hinit⟩
  · rintro s l t hn ⟨G, hdb, hcalls⟩
    cases l with
    | call i a =>
        obtain ⟨d, p, hst, rfl⟩ := Procs.next_call hn
        have hst' : stmt h i s.shared (s.proc i) a = some (d, p) := hst
        obtain ⟨G', hc, hdb', hcall⟩ := filed_step hst' hdb (hcalls i)
        refine ⟨G', hdb', ?_⟩
        refine Procs.forall_update (Q := fun j => FiledCall G' j d) hcall ?_
        intro j hj
        refine (hcalls j).other hc ?_ hj
        intro id b u hb hu hup
        exact hup.effect (stmt_effect hst') hdb.rows (hcalls i) hb hu
    | env e =>
        obtain ⟨d, he, rfl⟩ := Procs.next_env hn
        exact ⟨G, env_filed he hdb, fun i => (hcalls i).env he⟩

end Marketplace.Files
