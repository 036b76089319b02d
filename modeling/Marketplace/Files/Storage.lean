import Marketplace.Files.Policy

/-!
# Files.Storage — the bucket

What `src/storage/storage.ts` asks of S3, each call one atomic step of the bucket.
Clients write through presigned URLs only: a URL is good until it expires, for one
key, one content type or part number, and one body length.
-/

namespace Marketplace.Files

abbrev ETag := String
abbrev UploadId := ℕ

/-- `uploads/${sub}/${uuid}.${ext}`. -/
structure ObjectKey where
  sub : ℕ
  uuid : ℕ
  ext : String
deriving DecidableEq, Repr

/-- How S3 makes an ETag: of a body, and of the parts of a multipart upload. -/
structure Hashes where
  single : Bytes → ETag
  multipart : List ETag → ETag

structure StoredObject where
  body : Bytes
  etag : ETag
deriving DecidableEq, Repr

/-- An open multipart upload, with the latest body of each part number. -/
structure Upload where
  key : ObjectKey
  parts : ℕ → Option Bytes

structure ObjectHead where
  size : ℕ
  etag : ETag
deriving DecidableEq, Repr

structure UploadedPart where
  partNumber : ℕ
  etag : ETag
  size : ℕ
deriving DecidableEq, Repr

structure Bucket where
  objects : ObjectKey → Option StoredObject
  uploads : UploadId → Option Upload
  nextUpload : UploadId

namespace Bucket

/-- HeadObject. -/
def head (b : Bucket) (key : ObjectKey) : Option ObjectHead :=
  (b.objects key).map fun o => ⟨o.body.length, o.etag⟩

/-- GetObject with `Range: bytes=0-${bytes - 1}`; `none` for NoSuchKey. -/
def readRange (b : Bucket) (key : ObjectKey) (bytes : ℕ) : Option Bytes :=
  (b.objects key).map fun o => o.body.take bytes

def putObject (h : Hashes) (key : ObjectKey) (body : Bytes) (b : Bucket) : Bucket :=
  { b with objects := Function.update b.objects key (some ⟨body, h.single body⟩) }

/-- DeleteObjects with one key. -/
def deleteObject (key : ObjectKey) (b : Bucket) : Bucket :=
  { b with objects := Function.update b.objects key none }

def createMultipart (key : ObjectKey) (b : Bucket) : Bucket × UploadId :=
  ({ b with
      uploads := Function.update b.uploads b.nextUpload (some ⟨key, fun _ => none⟩)
      nextUpload := b.nextUpload + 1 }, b.nextUpload)

/-- The open upload under this key and id; `none` for NoSuchUpload. -/
def openUpload (b : Bucket) (key : ObjectKey) (uploadId : UploadId) : Option Upload :=
  (b.uploads uploadId).filter fun u => u.key == key

/-- UploadPart; nothing happens when the upload is gone. -/
def putPart (key : ObjectKey) (uploadId : UploadId) (partNumber : ℕ) (body : Bytes)
    (b : Bucket) : Bucket :=
  match b.openUpload key uploadId with
  | none => b
  | some u =>
      let u' : Upload := { u with parts := Function.update u.parts partNumber (some body) }
      { b with uploads := Function.update b.uploads uploadId (some u') }

/-- ListParts through all its pages, in part order. -/
def listParts (h : Hashes) (b : Bucket) (key : ObjectKey) (uploadId : UploadId) :
    Option (List UploadedPart) :=
  (b.openUpload key uploadId).map fun u =>
    (List.range' 1 maxParts).filterMap fun n =>
      (u.parts n).map fun body => ⟨n, h.single body, body.length⟩

/-- AbortMultipartUpload; NoSuchUpload is swallowed. -/
def abortMultipart (key : ObjectKey) (uploadId : UploadId) (b : Bucket) : Bucket :=
  match b.openUpload key uploadId with
  | none => b
  | some _ => { b with uploads := Function.update b.uploads uploadId none }

/-- The answer of CompleteMultipartUpload. -/
inductive Completion where
  | noSuchUpload
  /-- A listed part is not there, or is not the one that was listed. -/
  | invalidPart
  | completed (b : Bucket)

/-- The bodies of the listed parts, if each part is still the one that was listed. -/
def listedBodies (h : Hashes) (u : Upload) : List UploadedPart → Option (List Bytes)
  | [] => some []
  | p :: ps =>
      match (u.parts p.partNumber).filter fun body => h.single body == p.etag with
      | none => none
      | some body => (listedBodies h u ps).map (body :: ·)

def completeMultipart (h : Hashes) (key : ObjectKey) (uploadId : UploadId)
    (parts : List UploadedPart) (b : Bucket) : Completion :=
  match b.openUpload key uploadId with
  | none => .noSuchUpload
  | some u =>
      match listedBodies h u parts with
      | none => .invalidPart
      | some bodies =>
          let o : StoredObject := ⟨bodies.flatten, h.multipart (parts.map UploadedPart.etag)⟩
          .completed { b with
            objects := Function.update b.objects key (some o)
            uploads := Function.update b.uploads uploadId none }

end Bucket

/-- What a presigned URL allows. -/
inductive UrlKind where
  | put (contentType : String)
  | part (uploadId : UploadId) (partNumber : ℕ)
deriving DecidableEq, Repr

structure PresignedUrl where
  key : ObjectKey
  kind : UrlKind
  contentLength : ℕ
  expiresAt : ℕ
deriving DecidableEq, Repr

/-- A client uses a URL with a body. -/
def Bucket.usePresigned (h : Hashes) (url : PresignedUrl) (body : Bytes) (b : Bucket) : Bucket :=
  match url.kind with
  | .put _ => b.putObject h url.key body
  | .part uploadId partNumber => b.putPart url.key uploadId partNumber body

end Marketplace.Files
