import Marketplace.Auth.Tokens
import Marketplace.Core.Procs
import Marketplace.Core.Rows
import Marketplace.Files.Storage
import Marketplace.Http

/-!
# Files.Service — intent, resume, commit and the orphan sweep, statement by statement

`FilesService` of `src/files/files.service.ts` and `sweepOrphanFiles` of
`src/files/orphans.ts`. One action is one SQL statement or one storage call. The
statements of the service are transactions of their own; the sweep is one
transaction that holds the rows of its SELECT … FOR UPDATE to its COMMIT, while its
storage calls take effect at once. The environment is the clock and the clients,
who use the presigned URLs they were given.
-/

namespace Marketplace.Files

open Core Auth

abbrev FileId := ℕ

inductive Status where
  | pending | completed
deriving DecidableEq, Repr

/-- A row of `files`; the `id` is its key in the table. -/
structure FileRow where
  ownerId : UserId
  key : ObjectKey
  contentType : String
  size : ℕ
  status : Status
  uploadId : Option UploadId
  partSize : Option ℕ
  partCount : Option ℕ
  etag : Option ETag
  idempotencyKey : Option String
  createdAt : ℕ
deriving DecidableEq, Repr

structure Db where
  files : Table ℕ FileId FileRow
  bucket : Bucket
  /-- The presigned URLs handed out so far. -/
  urls : List PresignedUrl
  now : ℕ
  /-- The next `gen_random_uuid()` and `randomUUID()`. -/
  nextFile : FileId
  nextUuid : ℕ

structure IntentInput where
  contentType : String
  size : ℕ
deriving DecidableEq, Repr

inductive Response where
  | single (fileId : FileId) (key : ObjectKey) (url : PresignedUrl)
  | multipart (fileId : FileId) (key : ObjectKey) (partSize partCount : ℕ)
      (uploadedParts : List ℕ) (parts : List PresignedUrl)
  /-- What intent and resume answer for a finished file. -/
  | finished (fileId : FileId) (key : ObjectKey)
  /-- What commit answers. -/
  | committed (fileId : FileId) (key : ObjectKey) (size : ℕ) (etag : ETag)
  | swept (count : ℕ)
deriving DecidableEq, Repr

/-- Where a call is: the statement or storage call it makes next, with the row it has
loaded. -/
inductive Pc where
  | idle
  | intentInsert (viewer : AccessClaims) (input : IntentInput) (ext : String)
      (plan : Option PartPlan) (idempotencyKey : Option String)
  | intentFind (viewer : AccessClaims) (input : IntentInput) (idempotencyKey : String)
  | intentCreate (id : FileId) (row : FileRow)
  | intentUpdate (id : FileId) (row : FileRow) (uploadId : UploadId)
  | sign (id : FileId) (row : FileRow)
  | resumeFind (viewer : AccessClaims) (id : FileId)
  | commitFind (viewer : AccessClaims) (id : FileId)
  | commitParts (id : FileId) (row : FileRow) (uploadId : UploadId)
  /-- ListParts found no upload: is the object there? -/
  | commitGone (id : FileId) (row : FileRow)
  | commitComplete (id : FileId) (row : FileRow) (uploadId : UploadId)
      (parts : List UploadedPart)
  | commitHead (id : FileId) (row : FileRow)
  | commitDelete (id : FileId) (row : FileRow) (err : Thrown)
  | commitRead (id : FileId) (row : FileRow) (head : ObjectHead)
  | commitUpdate (id : FileId) (row : FileRow) (head : ObjectHead) (magic : Bytes)
  | sweepSelect (olderThanHours : ℕ) (at₀ : ℕ)
  | sweepAbort (rest rows : List (FileId × FileRow))
  | sweepObject (row : FileRow) (rest rows : List (FileId × FileRow))
  | sweepDelete (rows : List (FileId × FileRow))
  | sweepCommit (count : ℕ)
  | done (result : Except Thrown Response)
  | aborted

/-- One action of a call. `abort` is a crash, or a statement or storage call that fails;
`keyError` is DeleteObjects answering 200 with the key in its error list. -/
inductive Stmt where
  | intent (viewer : AccessClaims) (input : IntentInput) (idempotencyKey : Option String)
  | resume (viewer : AccessClaims) (id : FileId)
  | commit (viewer : AccessClaims) (id : FileId)
  | sweepOrphans (olderThanHours : ℕ)
  | run
  /-- The rows the SELECT of the sweep returns. -/
  | select (ids : List FileId)
  | keyError
  | abort
deriving DecidableEq, Repr

namespace Pc

/-- A result that is thrown. -/
def throws (status : ℕ) (message : String) : Pc := .done (.error (.http status message))

def fail (message : String) : Pc := .done (.error (.error message))

def returns (r : Response) : Pc := .done (.ok r)

/-- The call has begun and not ended. -/
def Open : Pc → Prop
  | .idle | .done _ | .aborted => False
  | _ => True

instance : DecidablePred Pc.Open := fun p => by
  cases p <;> first | exact isTrue trivial | exact isFalse id

end Pc

/-! ## Rows -/

/-- A statement of its own: nobody holds the row, and the new version is committed. -/
def setFile (id : FileId) (row : FileRow) (d : Db) : Db :=
  { d with files := Function.update d.files id (Slot.settled (some row)) }

/-- `UPDATE files SET … WHERE id = $1` with a further condition `cond`: it waits for
the row lock and re-evaluates the WHERE; no row, no update. -/
def updateFile (i : ℕ) (id : FileId) (cond : FileRow → Bool) (f : FileRow → FileRow)
    (d : Db) : Option Db :=
  if (d.files id).Free i then
    match (d.files id).base with
    | none => some d
    | some row => some (if cond row then setFile id (f row) d else d)
  else none

/-- The owner check of `findOwned`. -/
def checkOwned (viewer : AccessClaims) (row : Option FileRow) : Except Thrown FileRow :=
  match row with
  | none => .error (.http 404 "file not found")
  | some row =>
      if row.ownerId ≠ viewer.sub ∧ viewer.role ≠ .admin then
        .error (.http 403 "not your file")
      else .ok row

/-- `WHERE owner_id = $1 AND idempotency_key = $2`. -/
def hasKey (owner : UserId) (idempotencyKey : String) (row : FileRow) : Bool :=
  row.ownerId == owner && row.idempotencyKey == some idempotencyKey

/-- The committed row of this owner and key. -/
def findByKey (d : Db) (owner : UserId) (idempotencyKey : String) : Option FileId :=
  (List.range d.nextFile).find? fun id =>
    (d.files id).base.any (hasKey owner idempotencyKey)

/-! ## intent and resume -/

/-- Everything `intent` does before its INSERT: the lookup of the type (`undefined` is
falsy, an inherited member has no `maxBytes` and no `ext`), the size cap and the plan. -/
def intentChecks (viewer : AccessClaims) (input : IntentInput)
    (idempotencyKey : Option String) : Pc :=
  let found : Option (Option AllowedType) :=
    match JsObject.lookup allowedTypes input.contentType with
    | .own type => some (some type)
    | .inherited _ => some none
    | .undefined => none
  match found with
  | none => Pc.throws 415 "content type not allowed"
  | some type =>
      -- a comparison with `undefined` is false
      if type.any (fun t => t.maxBytes < input.size) then Pc.throws 413 "file too large"
      else
        -- in a template `undefined` is a word like any other
        let ext := (type.map AllowedType.ext).getD "undefined"
        if multipartThresholdBytes < input.size then
          match planParts input.size with
          | .error message => Pc.fail message
          | .ok plan => .intentInsert viewer input ext (some plan) idempotencyKey
        else .intentInsert viewer input ext none idempotencyKey

def newRow (d : Db) (viewer : AccessClaims) (input : IntentInput) (ext : String)
    (plan : Option PartPlan) (idempotencyKey : Option String) : FileRow :=
  { ownerId := viewer.sub
    key := { sub := viewer.sub, uuid := d.nextUuid, ext }
    contentType := input.contentType
    size := input.size
    status := .pending
    uploadId := none
    partSize := plan.map PartPlan.partSize
    partCount := plan.map PartPlan.partCount
    etag := none
    idempotencyKey
    createdAt := d.now }

def insertRow (d : Db) (row : FileRow) : Db :=
  { setFile d.nextFile row d with nextFile := d.nextFile + 1, nextUuid := d.nextUuid + 1 }

/-- `INSERT … ON CONFLICT (owner_id, idempotency_key) … DO NOTHING`. A row that another
transaction has deleted and not committed makes it wait. -/
def intentInsert (i : ℕ) (d : Db) (viewer : AccessClaims) (input : IntentInput) (ext : String)
    (plan : Option PartPlan) (idempotencyKey : Option String) : Option (Db × Pc) :=
  let row := newRow d viewer input ext plan idempotencyKey
  let next : Pc := if plan.isSome then .intentCreate d.nextFile row else .sign d.nextFile row
  match idempotencyKey with
  | none => some (insertRow d row, next)
  | some key =>
      match findByKey d viewer.sub key with
      | none => some (insertRow d row, next)
      | some id =>
          if (d.files id).Free i ∨ ((d.files id).lock.any fun l => l.2.isSome) then
            some (d, .intentFind viewer input key)
          else none

/-- The row of the first call with this key, and the checks on it. -/
def intentFind (d : Db) (viewer : AccessClaims) (input : IntentInput) (key : String) : Pc :=
  match findByKey d viewer.sub key with
  | none => Pc.throws 404 "file not found"
  | some id =>
      match checkOwned viewer (d.files id).base with
      | .error err => .done (.error err)
      | .ok row =>
          if row.contentType ≠ input.contentType ∨ row.size ≠ input.size then
            Pc.throws 422 "Idempotency-Key reused with a different body"
          else if row.status = .completed then Pc.returns (.finished id row.key)
          else if row.partCount.isSome ∧ row.uploadId.isNone then
            Pc.throws 409 "intent in progress, retry"
          else .sign id row

/-- `signFor`: a PUT URL, or URLs for the parts that are not there yet. -/
def signFor (h : Hashes) (d : Db) (id : FileId) (row : FileRow) : Db × Pc :=
  match row.uploadId with
  | none =>
      let url : PresignedUrl :=
        { key := row.key, kind := .put row.contentType, contentLength := row.size,
          expiresAt := d.now + secs putUrlTtlSec }
      ({ d with urls := url :: d.urls }, Pc.returns (.single id row.key url))
  | some uploadId =>
      match d.bucket.listParts h row.key uploadId with
      | none => (d, Pc.throws 410 "upload expired, start a new intent")
      | some uploaded =>
          let uploadedParts := uploaded.map UploadedPart.partNumber
          let plan : PartPlan := ⟨row.partSize.getD 0, row.partCount.getD 0⟩
          let missing := (List.range' 1 plan.partCount).filter fun n => n ∉ uploadedParts
          let urls : List PresignedUrl := missing.map fun n =>
            { key := row.key, kind := .part uploadId n,
              contentLength := partLength plan row.size n,
              expiresAt := d.now + secs partUrlTtlSec }
          ({ d with urls := urls ++ d.urls },
            Pc.returns (.multipart id row.key plan.partSize plan.partCount uploadedParts urls))

def resumeFind (d : Db) (viewer : AccessClaims) (id : FileId) : Pc :=
  match checkOwned viewer (d.files id).base with
  | .error err => .done (.error err)
  | .ok row =>
      if row.status = .completed then Pc.returns (.finished id row.key)
      else if row.uploadId.isNone then Pc.throws 400 "not a multipart upload"
      else .sign id row

/-! ## commit -/

def commitFind (d : Db) (viewer : AccessClaims) (id : FileId) : Pc :=
  match checkOwned viewer (d.files id).base with
  | .error err => .done (.error err)
  | .ok row =>
      if row.status = .completed then
        Pc.returns (.committed id row.key row.size (row.etag.getD ""))
      else
        match row.uploadId with
        | some uploadId => .commitParts id row uploadId
        | none => .commitHead id row

/-- `completeFromStorage` up to CompleteMultipartUpload. -/
def commitParts (h : Hashes) (d : Db) (id : FileId) (row : FileRow) (uploadId : UploadId) : Pc :=
  match d.bucket.listParts h row.key uploadId with
  | none => .commitGone id row
  | some parts =>
      if some parts.length ≠ row.partCount then
        Pc.throws 409 s!"parts uploaded {parts.length} of {row.partCount.getD 0}"
      else
        let plan : PartPlan := ⟨row.partSize.getD 0, row.partCount.getD 0⟩
        match parts.find? fun p => p.size != partLength plan row.size p.partNumber with
        | some wrong => Pc.throws 409 s!"part {wrong.partNumber} has the wrong size"
        | none => .commitComplete id row uploadId parts

def commitComplete (h : Hashes) (d : Db) (id : FileId) (row : FileRow) (uploadId : UploadId)
    (parts : List UploadedPart) : Db × Pc :=
  match d.bucket.completeMultipart h row.key uploadId parts with
  | .noSuchUpload => (d, .commitHead id row)
  | .invalidPart => (d, Pc.fail "InvalidPart")
  | .completed b => ({ d with bucket := b }, .commitHead id row)

def commitHead (d : Db) (id : FileId) (row : FileRow) : Pc :=
  match d.bucket.head row.key with
  | none => Pc.throws 409 "object not uploaded"
  | some head =>
      if head.size ≠ row.size then
        .commitDelete id row
          (.http 409 s!"size mismatch: expected {row.size}, got {head.size}")
      else .commitRead id row head

def commitRead (d : Db) (id : FileId) (row : FileRow) (head : ObjectHead) : Pc :=
  match d.bucket.readRange row.key magicBytes with
  | none => Pc.fail "NoSuchKey"
  | some magic =>
      match magicMatches row.contentType magic with
      | .error _ => Pc.fail "TypeError"
      | .ok false =>
          .commitDelete id row (.http 422 "content does not match its content type")
      | .ok true => .commitUpdate id row head magic

/-- `UPDATE files SET status = 'COMPLETED', … WHERE id = $1 AND status = 'PENDING'`. -/
def commitUpdate (i : ℕ) (d : Db) (id : FileId) (row : FileRow) (head : ObjectHead) :
    Option (Db × Pc) :=
  (updateFile i id (fun r => r.status == .pending)
    (fun r => { r with status := .completed, etag := some head.etag }) d).map fun d' =>
      (d', Pc.returns (.committed id row.key head.size head.etag))

/-! ## The orphan sweep -/

def batch : ℕ := 100

/-- `WHERE status = 'PENDING' AND created_at < now() - make_interval(hours => $1)`, on a
row that nobody else has locked. -/
def orphan (i : ℕ) (at₀ olderThanHours : ℕ) (d : Db) (id : FileId) : Bool :=
  decide ((d.files id).Free i) && ((d.files id).view i).any fun row =>
    row.status == .pending && decide (row.createdAt + secs (olderThanHours * 3600) < at₀)

def createdAt (i : ℕ) (d : Db) (id : FileId) : ℕ :=
  (((d.files id).view i).map FileRow.createdAt).getD 0

/-- What `ORDER BY created_at LIMIT … FOR UPDATE SKIP LOCKED` may return. -/
def Selected (i : ℕ) (at₀ olderThanHours : ℕ) (d : Db) (ids : List FileId) : Prop :=
  ids.Nodup ∧ ids.length ≤ batch ∧ (∀ id ∈ ids, orphan i at₀ olderThanHours d id = true) ∧
  ids.Pairwise (fun a b => createdAt i d a ≤ createdAt i d b) ∧
  ∀ id ∈ List.range d.nextFile, orphan i at₀ olderThanHours d id = true →
    id ∈ ids ∨ ids.length = batch ∧ ∀ k ∈ ids, createdAt i d k ≤ createdAt i d id

instance (i : ℕ) (at₀ olderThanHours : ℕ) (d : Db) (ids : List FileId) :
    Decidable (Selected i at₀ olderThanHours d ids) :=
  inferInstanceAs (Decidable (_ ∧ _ ∧ _ ∧ _ ∧ _))

/-- Lock the selected rows. -/
def lockAll (i : ℕ) (ids : List FileId) (d : Db) : Db :=
  { d with files := fun id =>
      if id ∈ ids then (d.files id).put i ((d.files id).view i) else d.files id }

def rowsOf (i : ℕ) (d : Db) (ids : List FileId) : List (FileId × FileRow) :=
  ids.filterMap fun id => ((d.files id).view i).map fun row => (id, row)

/-- The storage calls of the loop, row by row, then the DELETE. -/
def sweepNext (rest rows : List (FileId × FileRow)) : Pc :=
  match rest with
  | [] => if rows.isEmpty then .sweepCommit 0 else .sweepDelete rows
  | (_, row) :: rest' =>
      if row.uploadId.isSome then .sweepAbort rest rows else .sweepObject row rest' rows

/-! ## All calls -/

def stmt (h : Hashes) (i : ℕ) (d : Db) : Pc → Stmt → Option (Db × Pc)
  | .idle, .intent viewer input key => some (d, intentChecks viewer input key)
  | .idle, .resume viewer id => some (d, .resumeFind viewer id)
  | .idle, .commit viewer id => some (d, .commitFind viewer id)
  | .idle, .sweepOrphans hours => some (d, .sweepSelect hours d.now)
  | .intentInsert viewer input ext plan key, .run => intentInsert i d viewer input ext plan key
  | .intentFind viewer input key, .run => some (d, intentFind d viewer input key)
  | .intentCreate id row, .run =>
      let r := d.bucket.createMultipart row.key
      some ({ d with bucket := r.1 }, .intentUpdate id row r.2)
  | .intentUpdate id row uploadId, .run =>
      (updateFile i id (fun _ => true) (fun r => { r with uploadId := some uploadId }) d).map
        fun d' => (d', .sign id { row with uploadId := some uploadId })
  | .sign id row, .run => some (signFor h d id row)
  | .resumeFind viewer id, .run => some (d, resumeFind d viewer id)
  | .commitFind viewer id, .run => some (d, commitFind d viewer id)
  | .commitParts id row uploadId, .run => some (d, commitParts h d id row uploadId)
  | .commitGone id row, .run =>
      some (d, if (d.bucket.head row.key).isSome then .commitHead id row
        else Pc.fail "NoSuchUpload")
  | .commitComplete id row uploadId parts, .run =>
      some (commitComplete h d id row uploadId parts)
  | .commitHead id row, .run => some (d, commitHead d id row)
  | .commitDelete _ row err, .run =>
      some ({ d with bucket := d.bucket.deleteObject row.key }, .done (.error err))
  | .commitDelete _ _ err, .keyError => some (d, .done (.error err))
  | .commitRead id row head, .run => some (d, commitRead d id row head)
  | .commitUpdate id row head _, .run => commitUpdate i d id row head
  | .sweepSelect hours at₀, .select ids =>
      if Selected i at₀ hours d ids then
        some (lockAll i ids d, sweepNext (rowsOf i d ids) (rowsOf i d ids))
      else none
  | .sweepAbort ((_, row) :: rest) rows, .run =>
      match row.uploadId with
      | some uploadId =>
          some ({ d with bucket := d.bucket.abortMultipart row.key uploadId },
            .sweepObject row rest rows)
      | none => none
  | .sweepObject row rest rows, .run =>
      some ({ d with bucket := d.bucket.deleteObject row.key }, sweepNext rest rows)
  | .sweepObject _ rest rows, .keyError => some (d, sweepNext rest rows)
  | .sweepDelete rows, .run =>
      some ({ d with files := d.files.deleteAll i (rows.map Prod.fst) },
        .sweepCommit rows.length)
  | .sweepCommit count, .run =>
      some ({ d with files := d.files.commit i }, Pc.returns (.swept count))
  | pc, .abort => if pc.Open then some ({ d with files := d.files.rollback i }, .aborted) else none
  | _, _ => none

/-- The clock, and the clients with their URLs; an open upload may be aborted by the
lifecycle rule of the bucket. -/
inductive Env where
  | tick (dt : ℕ)
  | upload (url : PresignedUrl) (body : Bytes)
  | lifecycle (key : ObjectKey) (uploadId : UploadId)

def env (h : Hashes) (d : Db) : Env → Option Db
  | .tick dt => some { d with now := d.now + dt }
  | .upload url body =>
      if url ∈ d.urls ∧ d.now < url.expiresAt ∧ body.length = url.contentLength then
        some { d with bucket := d.bucket.usePresigned h url body }
      else none
  | .lifecycle key uploadId => some { d with bucket := d.bucket.abortMultipart key uploadId }

/-- A service that has no file yet. -/
def Init (d : Db) : Prop :=
  (∀ id, d.files id = Slot.settled none) ∧ (∀ key, d.bucket.objects key = none) ∧
  (∀ u, d.bucket.uploads u = none) ∧ d.urls = []

def procs (h : Hashes) : Procs ℕ Db Pc Stmt Env where
  Init := Init
  idle := .idle
  stmt := stmt h
  env := env h

abbrev St := World ℕ Db Pc
abbrev Label := Act ℕ Stmt Env
abbrev machine (h : Hashes) : Machine St Label := (procs h).machine

end Marketplace.Files
