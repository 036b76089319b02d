import Marketplace.Files.Allowlist
import Marketplace.Files.Finished

/-!
# Files.Download — who reads what, and who has written it

`FilesService.downloadUrl` of `src/files/files.service.ts` beside the calls of `Files.Service`,
and for every URL the claims of the request that was answered with it. The bytes never pass the
service, and a URL is good for anybody who has it; so what a user may read or write is what the
URLs handed to that user allow.

* a visit of `GET /files/:id` is its SELECT and then the signing of the URL;
* `uploads` and `redirects` are the URLs handed out, `viewers` the claims a call began with, and
  `sent` is a ghost: what clients have put, and with which URL.

`downloads_isolated`: the bytes a GET URL leads to were put with URLs handed to the owner of a
finished file, and to admins only.
-/

namespace Marketplace.Files

open Core Auth

/-! ## The system -/

def downloadUrlTtlSec : ℕ := 60

/-- What `presignGet` signs. -/
structure GetUrl where
  key : ObjectKey
  expiresAt : ℕ
deriving DecidableEq, Repr

/-- A URL for writing, and whom it was handed to. -/
structure Handed where
  viewer : AccessClaims
  url : PresignedUrl
deriving DecidableEq, Repr

/-- A redirect, of the request for this file. -/
structure Redirect where
  viewer : AccessClaims
  id : FileId
  url : GetUrl
deriving DecidableEq, Repr

/-- Where a `GET /files/:id` is. -/
inductive Visit where
  | absent
  | find (viewer : AccessClaims) (id : FileId)
  | sign (viewer : AccessClaims) (id : FileId) (row : FileRow)
  | done (result : Except Thrown GetUrl)

structure Site where
  service : St
  viewers : ℕ → Option AccessClaims
  uploads : List Handed
  visits : ℕ → Visit
  redirects : List Redirect
  sent : List (PresignedUrl × Bytes)

inductive Step where
  | service (l : Label)
  | download (j : ℕ) (viewer : AccessClaims) (id : FileId)
  | go (j : ℕ)

/-- The claims a call begins with. -/
def Stmt.viewer : Stmt → Option AccessClaims
  | .intent viewer _ _ | .resume viewer _ | .commit viewer _ => some viewer
  | _ => none

/-- The URLs in an answer. -/
def Pc.urls : Pc → List PresignedUrl
  | .done (.ok (.single _ _ url)) => [url]
  | .done (.ok (.multipart _ _ _ _ _ urls)) => urls
  | _ => []

/-- What a client puts, and where. -/
def Env.puts : Env → List (PresignedUrl × Bytes)
  | .upload url body => [(url, body)]
  | _ => []

/-- `findOwned` and the status check of `downloadUrl`. -/
def downloadFind (d : Db) (viewer : AccessClaims) (id : FileId) : Visit :=
  match checkOwned viewer (d.files id).base with
  | .error err => .done (.error err)
  | .ok row =>
      if row.status = .completed then .sign viewer id row
      else .done (.error (.http 404 "file not found"))

namespace Site

def setVisit (j : ℕ) (v : Visit) (s : Site) : Site :=
  { s with visits := Function.update s.visits j v }

/-- After action `a` of call `i`, which has left the service as `t`. -/
def called (i : ℕ) (a : Stmt) (t : St) (s : Site) : Site :=
  let viewer := a.viewer <|> s.viewers i
  { s with
    service := t
    viewers := Function.update s.viewers i viewer
    uploads := (viewer.elim [] fun v => (t.proc i).urls.map (⟨v, ·⟩)) ++ s.uploads }

/-- After a step of the environment. -/
def moved (e : Env) (t : St) (s : Site) : Site :=
  { s with service := t, sent := e.puts ++ s.sent }

def go (j : ℕ) (s : Site) : Option Site :=
  match s.visits j with
  | .find viewer id => some (s.setVisit j (downloadFind s.service.shared viewer id))
  | .sign viewer id row =>
      let url : GetUrl := ⟨row.key, s.service.shared.now + secs downloadUrlTtlSec⟩
      some { s.setVisit j (.done (.ok url)) with redirects := ⟨viewer, id, url⟩ :: s.redirects }
  | _ => none

/-- What a client gets with a URL; `none` when it has expired, or for NoSuchKey. -/
def fetch (url : GetUrl) (s : Site) : Option Bytes :=
  if s.service.shared.now < url.expiresAt then
    (s.service.shared.bucket.objects url.key).map StoredObject.body
  else none

end Site

def Site.next (h : Hashes) (s : Site) : Step → Option Site
  | .service (.call i a) =>
      ((machine h).next s.service (.call i a)).map fun t => s.called i a t
  | .service (.env e) => ((machine h).next s.service (.env e)).map fun t => s.moved e t
  | .download j viewer id =>
      match s.visits j with
      | .absent => some (s.setVisit j (.find viewer id))
      | _ => none
  | .go j => s.go j

def Site.Init (h : Hashes) (s : Site) : Prop :=
  (machine h).Init s.service ∧ (∀ i, s.viewers i = none) ∧ s.uploads = [] ∧
  (∀ j, s.visits j = .absent) ∧ s.redirects = [] ∧ s.sent = []

def site (h : Hashes) : Machine Site Step := ⟨Site.Init h, Site.next h⟩

variable {h : Hashes} {i j : ℕ} {d d' : Db} {pc pc' : Pc} {a : Stmt} {id : FileId}
  {row : FileRow} {viewer : AccessClaims} {key : ObjectKey} {s t : Site}

/-! ## Owners -/

/-- The key is in the directory of the viewer. -/
def MayUse (viewer : AccessClaims) (key : ObjectKey) : Prop :=
  key.sub = viewer.sub ∨ viewer.role = .admin

/-- Every file is in the directory of its owner. -/
def OwnKeys (d : Db) : Prop := ∀ id r, (d.files id).base = some r → r.key.sub = r.ownerId

/-- A call that is going to sign URLs for a row may do so. -/
def Entitled (viewer : Option AccessClaims) : Pc → Prop
  | .intentInsert v _ _ _ _ | .intentFind v _ _ | .resumeFind v _ => viewer = some v
  | .intentCreate _ row | .intentUpdate _ row _ | .sign _ row =>
      ∃ v, viewer = some v ∧ MayUse v row.key
  | _ => True

/-- Whoever passes the ownership check owns the row or is an admin. -/
theorem checkOwned_owner {o : Option FileRow} (h : checkOwned viewer o = .ok row) :
    o = some row ∧ (row.ownerId = viewer.sub ∨ viewer.role = .admin) := by
  constructor
  · exact checkOwned_ok h
  · unfold checkOwned at h
    split at h
    · cases h
    · split at h
      · cases h
      · next hno =>
          cases h
          by_contra hneither
          exact hno (not_or.mp hneither)

/-- No statement gives a row the key of another. -/
theorem OwnKeys.effect (hk : OwnKeys d) (hv : Versions d) (he : Effect i d d' pc) :
    OwnKeys d' := by
  intro id r hb
  cases he.rowChange hv id with
  | keep heq => exact hk id r (heq ▸ hb)
  | gone heq =>
      rw [heq] at hb
      cases hb
  | insert _ _ heq =>
      rw [heq] at hb
      cases hb
      rfl
  | setUpload hb' heq =>
      have howner := hk id _ hb'
      rw [heq] at hb
      cases hb
      exact howner
  | complete hb' _ heq =>
      have howner := hk id _ hb'
      rw [heq] at hb
      cases hb
      exact howner

/-- Whoever passes the ownership check may use the row's key. -/
theorem OwnKeys.mayUse (hk : OwnKeys d)
    (h : checkOwned viewer (d.files id).base = .ok row) : MayUse viewer row.key := by
  obtain ⟨hb, howner⟩ := checkOwned_owner h
  unfold MayUse
  rw [hk id row hb]
  exact howner

/-- A repeated intent goes on with a row of the viewer's own. -/
theorem intentFind_entitled {input : IntentInput} {k : String} (hk : OwnKeys d) :
    Entitled (some viewer) (intentFind d viewer input k) := by
  unfold intentFind
  split
  · trivial
  · next id _ =>
      split
      · trivial
      · next row hrow =>
          split
          · trivial
          · split
            · trivial
            · split
              · trivial
              · exact ⟨viewer, rfl, hk.mayUse hrow⟩

/-- A resume goes on with a row the viewer may use. -/
theorem resumeFind_entitled (hk : OwnKeys d) :
    Entitled (some viewer) (resumeFind d viewer id) := by
  unfold resumeFind
  split
  · trivial
  · next row hrow =>
      split
      · trivial
      · split
        · trivial
        · exact ⟨viewer, rfl, hk.mayUse hrow⟩

/-- A new intent goes on for its viewer. -/
theorem intentChecks_entitled {input : IntentInput} {k : Option String} :
    Entitled (some viewer) (intentChecks viewer input k) := by
  rcases intentChecks_cases viewer input k with ⟨err, heq⟩ | ⟨ext, plan, heq, -⟩
  · rw [heq]
    trivial
  · rw [heq]
    rfl

/-- A call past handing out URLs has nothing to be entitled to. -/
theorem Pc.Past.entitled {who : Option AccessClaims} (hpc : pc.Past) : Entitled who pc := by
  cases pc <;> trivial

/-- Every statement keeps its call entitled: what it has in hand is the viewer's. -/
theorem Does.entitled {who : Option AccessClaims} (hd : Does h i d pc a d' pc') (hk : OwnKeys d)
    (hpc : Entitled who pc) : Entitled (a.viewer <|> who) pc' := by
  by_cases hpast : pc.Past
  · exact (hd.past hpast).entitled
  cases hd with
  | intent => exact intentChecks_entitled
  | resume => rfl
  | begin => trivial
  | sweep => trivial
  | @insert v input ext plan k row hrow _ =>
      have hmay : MayUse v row.key := by
        rw [hrow]
        exact Or.inl rfl
      split <;> exact ⟨v, hpc, hmay⟩
  | conflict _ => exact hpc
  | @find v input k =>
      have hwho : who = some v := hpc
      subst hwho
      exact intentFind_entitled hk
  | create => exact hpc
  | setUpload _ _ => exact hpc
  | setNothing _ => exact hpc
  | @sign id row =>
      rcases signFor_cases h d id row with ⟨err, heq⟩ | ⟨url, heq⟩ | ⟨ps, pn, up, urls, heq⟩ <;>
      · rw [heq]
        trivial
  | @resumeFind v id =>
      have hwho : who = some v := hpc
      subst hwho
      exact resumeFind_entitled hk
  | abort _ => trivial
  | _ => exact absurd trivial hpast

/-! ## URLs -/

theorem Pc.Refused.urls (hpc : pc.Refused) : pc.urls = [] := by
  obtain ⟨err, rfl⟩ := hpc
  rfl

theorem Found.urls (hpc : Found d pc) : pc.urls = [] := by
  obtain ⟨id, r, -, ⟨-, rfl⟩ | rfl⟩ := hpc <;> rfl

/-- A call past handing out URLs answers with none. -/
theorem Pc.Past.urls (hpc : pc.Past) : pc.urls = [] := by
  cases pc with
  | done result =>
      cases result with
      | error err => rfl
      | ok response => cases response <;> first | rfl | exact hpc.elim
  | _ => rfl

/-- A call that commits or sweeps hands out no URLs. -/
theorem Does.past_urls (hd : Does h i d pc a d' pc') (hpc : pc.Past) : d'.urls = d.urls := by
  cases hd with
  | sign => exact hpc.elim
  | @complete id row u parts => exact (commitComplete_same h d id row u parts).2.2
  | _ => rfl

/-- What the signing hands out is what is answered, all for the row's key. -/
theorem signFor_answered (h : Hashes) (d : Db) (id : FileId) (row : FileRow) :
    (signFor h d id row).1.urls = (signFor h d id row).2.urls ++ d.urls ∧
    ∀ url ∈ (signFor h d id row).2.urls, url.key = row.key := by
  unfold signFor
  split
  · constructor
    · rfl
    · intro url hurl
      rw [List.mem_singleton.mp hurl]
  · split
    · exact ⟨rfl, nofun⟩
    · constructor
      · rfl
      · intro url hurl
        obtain ⟨n, -, rfl⟩ := List.mem_map.mp hurl
        rfl

/-- New URLs are in the answer, for a row the call may sign. -/
theorem Does.answered (hd : Does h i d pc a d' pc') :
    d'.urls = pc'.urls ++ d.urls ∧
    ∀ url ∈ pc'.urls, a = .run ∧ ∃ id row, pc = .sign id row ∧ url.key = row.key := by
  -- most statements hand out nothing
  have silent : d'.urls = d.urls → pc'.urls = [] → d'.urls = pc'.urls ++ d.urls ∧
      ∀ url ∈ pc'.urls, a = .run ∧ ∃ id row, pc = .sign id row ∧ url.key = row.key := by
    intro hsame hnone
    rw [hnone]
    exact ⟨hsame, nofun⟩
  -- a call past it answers without URLs
  by_cases hpast : pc.Past
  · exact silent (hd.past_urls hpast) (hd.past hpast).urls
  cases hd with
  | @intent v input k =>
      apply silent rfl
      rcases intentChecks_cases v input k with href | ⟨ext, plan, heq, -⟩
      · exact href.urls
      · rw [heq]
        rfl
  | insert _ _ =>
      apply silent rfl
      split <;> rfl
  | find =>
      apply silent rfl
      exact (intentFind_cases _ _ _ _).elim Pc.Refused.urls Found.urls
  | @sign id row =>
      obtain ⟨hurls, hkeys⟩ := signFor_answered h d id row
      exact ⟨hurls, fun url hurl => ⟨rfl, id, row, rfl, hkeys url hurl⟩⟩
  | resumeFind =>
      apply silent rfl
      exact (resumeFind_cases _ _ _).elim Pc.Refused.urls Found.urls
  | resume | begin | sweep | conflict _ | create | setUpload _ _ | setNothing _ | abort _ =>
      exact silent rfl rfl
  | _ => exact absurd trivial hpast

/-! ## Bytes -/

/-- These bytes have been put with a URL for this key. -/
def Put (sent : List (PresignedUrl × Bytes)) (key : ObjectKey) (body : Bytes) : Prop :=
  ∃ url, (url, body) ∈ sent ∧ url.key = key

/-- What is in the bucket has been put there, part by part. -/
structure Traced (sent : List (PresignedUrl × Bytes)) (b : Bucket) : Prop where
  objects : ∀ key o, b.objects key = some o →
    ∃ bodies : List Bytes, o.body = bodies.flatten ∧ ∀ body ∈ bodies, Put sent key body
  parts : ∀ u up, b.uploads u = some up → ∀ n body, up.parts n = some body → Put sent up.key body

variable {sent : List (PresignedUrl × Bytes)} {b b' : Bucket}

/-- Taking objects and uploads away leaves the rest traced. -/
theorem Traced.shrink (ht : Traced sent b)
    (hobj : ∀ key, b'.objects key = none ∨ b'.objects key = b.objects key)
    (hup : ∀ u, b'.uploads u = none ∨ b'.uploads u = b.uploads u) : Traced sent b' := by
  constructor
  · intro key o ho
    rcases hobj key with hnone | hsame
    · rw [hnone] at ho
      cases ho
    · exact ht.objects key o (hsame ▸ ho)
  · intro u up hu
    rcases hup u with hnone | hsame
    · rw [hnone] at hu
      cases hu
    · exact ht.parts u up (hsame ▸ hu)

/-- The parts a completion puts together were put through URLs of the key. -/
theorem listedBodies_put {up : Upload} {parts : List UploadedPart} {bodies : List Bytes}
    (hput : ∀ n body, up.parts n = some body → Put sent up.key body)
    (hb : Bucket.listedBodies h up parts = some bodies) : ∀ body ∈ bodies, Put sent up.key body := by
  induction parts generalizing bodies with
  | nil =>
      cases hb
      exact nofun
  | cons p parts ih =>
      rw [Bucket.listedBodies] at hb
      split at hb
      · cases hb
      · next body hbody =>
          obtain ⟨rest, hrest, rfl⟩ := Option.map_eq_some_iff.mp hb
          intro x hx
          rcases List.mem_cons.mp hx with rfl | hx
          · exact hput _ x (Option.filter_eq_some_iff.mp hbody).1
          · exact ih hrest x hx

/-- A completed upload makes an object of parts that are traced. -/
theorem Traced.complete {u : UploadId} {parts : List UploadedPart} (ht : Traced sent b)
    (hc : b.completeMultipart h key u parts = .completed b') : Traced sent b' := by
  unfold Bucket.completeMultipart at hc
  split at hc
  · cases hc
  · next up hup =>
      split at hc
      · cases hc
      · next bodies hbodies =>
          cases hc
          obtain ⟨hu, hkey⟩ := openUpload_some hup
          constructor
          · intro k o ho
            change Function.update b.objects key _ k = some o at ho
            by_cases hk : k = key
            · subst hk
              rw [Function.update_self] at ho
              cases ho
              exact ⟨bodies, rfl, hkey ▸ listedBodies_put (ht.parts u up hu) hbodies⟩
            · rw [Function.update_of_ne hk] at ho
              exact ht.objects k o ho
          · intro v up' hv
            rcases update_none_shrinks b.uploads u v with hnone | hsame
            · exact absurd (hnone.symm.trans hv) nofun
            · exact ht.parts v up' (hsame ▸ hv)

/-- A new upload has no parts. -/
theorem Traced.create (ht : Traced sent b) : Traced sent (b.createMultipart key).1 := by
  constructor
  · exact ht.objects
  · intro u up hu
    change Function.update b.uploads b.nextUpload _ u = some up at hu
    by_cases hnew : u = b.nextUpload
    · subst hnew
      rw [Function.update_self] at hu
      cases hu
      exact nofun
    · rw [Function.update_of_ne hnew] at hu
      exact ht.parts u up hu

theorem Traced.delete (ht : Traced sent b) : Traced sent (b.deleteObject key) :=
  ht.shrink (update_none_shrinks b.objects key) fun _ => Or.inr rfl

/-- An aborted upload takes its parts along. -/
theorem Traced.abort {u : UploadId} (ht : Traced sent b) :
    Traced sent (b.abortMultipart key u) := by
  apply ht.shrink ?_ (abortMultipart_shrinks key u b).2
  intro k
  exact Or.inr (congrFun (abortMultipart_objects key u b) k)

/-- No statement brings bytes in that were not put through a URL. -/
theorem Does.traced (hd : Does h i d pc a d' pc') (ht : Traced sent d.bucket) :
    Traced sent d'.bucket := by
  cases hd with
  | create => exact ht.create
  | @sign id row => exact signFor_bucket h d id row ▸ ht
  | @complete id row u parts =>
      unfold commitComplete
      split
      · exact ht
      · exact ht
      · next b hb => exact ht.complete hb
  | delete => exact ht.delete
  | sweepObject => exact ht.delete
  | sweepAbort _ => exact ht.abort
  | _ => exact ht

/-- More uploads sent leave everything traced. -/
theorem Traced.mono {x : PresignedUrl × Bytes} (ht : Traced sent b) : Traced (x :: sent) b := by
  have more : ∀ {key body}, Put sent key body → Put (x :: sent) key body := by
    rintro key body ⟨url, hin, hkey⟩
    exact ⟨url, List.mem_cons_of_mem _ hin, hkey⟩
  constructor
  · intro key o ho
    obtain ⟨bodies, heq, hput⟩ := ht.objects key o ho
    exact ⟨bodies, heq, fun body hbody => more (hput body hbody)⟩
  · intro u up hu n body hbody
    exact more (ht.parts u up hu n body hbody)

/-- A client puts an object, or a part. -/
theorem Traced.upload {url : PresignedUrl} {body : Bytes} (ht : Traced sent b) :
    Traced ((url, body) :: sent) (b.usePresigned h url body) := by
  have hmore : Traced ((url, body) :: sent) b := ht.mono
  -- the bytes are put through this very URL
  have hput : Put ((url, body) :: sent) url.key body := ⟨url, List.mem_cons_self, rfl⟩
  unfold Bucket.usePresigned
  split
  · constructor
    · intro k o ho
      change Function.update b.objects url.key _ k = some o at ho
      by_cases hk : k = url.key
      · subst hk
        rw [Function.update_self] at ho
        cases ho
        refine ⟨[body], by simp, ?_⟩
        intro x hx
        rwa [List.mem_singleton.mp hx]
      · rw [Function.update_of_ne hk] at ho
        exact hmore.objects k o ho
    · exact hmore.parts
  · next u n _ =>
      unfold Bucket.putPart
      split
      · exact hmore
      · next up hup =>
          obtain ⟨hu, hkey⟩ := openUpload_some hup
          constructor
          · exact hmore.objects
          · intro v up' hv m x hx
            change Function.update b.uploads u _ v = some up' at hv
            by_cases hvu : v = u
            · subst hvu
              rw [Function.update_self] at hv
              cases hv
              show Put _ up.key x
              change Function.update up.parts n (some body) m = some x at hx
              by_cases hm : m = n
              · subst hm
                rw [Function.update_self] at hx
                cases hx
                exact hkey.symm ▸ hput
              · rw [Function.update_of_ne hm] at hx
                exact hmore.parts v up hu m x hx
            · rw [Function.update_of_ne hvu] at hv
              exact hmore.parts v up' hv m x hx

/-- The environment brings bytes in only through URLs. -/
theorem Traced.env {e : Env} (ht : Traced sent d.bucket) (he : env h d e = some d') :
    Traced (e.puts ++ sent) d'.bucket := by
  cases e with
  | tick dt =>
      cases he
      exact ht
  | upload url body =>
      simp only [Files.env] at he
      split at he
      · cases he
        exact ht.upload
      · cases he
  | lifecycle k u =>
      cases he
      exact ht.abort

/-! ## Whole runs -/

/-- The invariant. -/
structure Isolated (s : Site) : Prop where
  versions : Versions s.service.shared
  locked : LockedPending s.service.shared
  holding : ∀ i, Holding i s.service.shared (s.service.proc i)
  keys : OwnKeys s.service.shared
  calls : ∀ i, Entitled (s.viewers i) (s.service.proc i)
  handed : ∀ x ∈ s.uploads, MayUse x.viewer x.url.key
  known : ∀ url ∈ s.service.shared.urls, ∃ x ∈ s.uploads, x.url = url
  traced : Traced s.sent s.service.shared.bucket
  used : ∀ x ∈ s.sent, ∃ y ∈ s.uploads, y.url = x.1
  visits : ∀ j v id row, s.visits j = .sign v id row → Finished s.service.shared v id row.key
  redirects : ∀ x ∈ s.redirects, Finished s.service.shared x.viewer x.id x.url.key ∧
    x.url.expiresAt ≤ s.service.shared.now + secs downloadUrlTtlSec

/-- No statement moves the clock. -/
theorem Does.now (hd : Does h i d pc a d' pc') : d'.now = d.now := by
  cases hd with
  | @sign id row =>
      unfold signFor
      split
      · rfl
      · split <;> rfl
  | @complete id row u parts =>
      unfold commitComplete
      split <;> rfl
  | _ => rfl

/-- Whether a file is finished depends on the rows only. -/
theorem Finished.congr (hf : d'.files = d.files) (hk : Finished d viewer id key) :
    Finished d' viewer id key := by
  unfold Finished
  rw [hf]
  exact hk

theorem called_uploads (i : ℕ) (a : Stmt) (d' : Db) (pc' : Pc) (s : Site) :
    (s.called i a ⟨d', Function.update s.service.proc i pc'⟩).uploads =
      ((a.viewer <|> s.viewers i).elim [] fun v => pc'.urls.map (⟨v, ·⟩)) ++ s.uploads := by
  simp only [Site.called, Function.update_self]

/-- A statement of the service keeps the site isolated: what it hands out, its viewer is entitled
to. -/
theorem Isolated.call (hs : Isolated s)
    (hst : stmt h i s.service.shared (s.service.proc i) a = some (d', pc')) :
    Isolated (s.called i a ⟨d', Function.update s.service.proc i pc'⟩) := by
  have hd : Does h i s.service.shared (s.service.proc i) a d' pc' := stmt_does hst
  have he := stmt_effect hst
  obtain ⟨hurls, hnew⟩ := hd.answered
  -- whose answer it is
  have hhanded : ∀ url ∈ pc'.urls, ∃ v, (a.viewer <|> s.viewers i) = some v ∧
      MayUse v url.key := by
    intro url hurl
    obtain ⟨rfl, id, row, hpc, hkey⟩ := hnew url hurl
    have hmay := hs.calls i
    rw [hpc] at hmay
    obtain ⟨v, hv, hmay⟩ := hmay
    exact ⟨v, hv, hkey.symm ▸ hmay⟩
  have hmine : (Function.update s.service.proc i pc') i = pc' := Function.update_self ..
  have hfinished : ∀ {v id key}, Finished s.service.shared v id key → Finished d' v id key :=
    fun hf => hf.effect hs.locked hs.versions he
  constructor
  · exact he.versions hs.versions
  · exact hs.locked.effect hs.versions (hs.holding i) he
  · intro j
    show Holding j d' (Function.update s.service.proc i pc' j)
    by_cases hj : j = i
    · subst hj
      rw [hmine]
      exact hd.holding (hs.holding j)
    · rw [Function.update_of_ne hj]
      intro p hp
      exact he.held hs.versions hs.locked (hs.holding i) hj (hs.holding j p hp)
  · exact hs.keys.effect hs.versions he
  · intro j
    show Entitled (Function.update s.viewers i (a.viewer <|> s.viewers i) j)
      (Function.update s.service.proc i pc' j)
    by_cases hj : j = i
    · subst hj
      rw [hmine, Function.update_self]
      exact hd.entitled hs.keys (hs.calls j)
    · rw [Function.update_of_ne hj, Function.update_of_ne hj]
      exact hs.calls j
  · intro x hx
    rw [called_uploads] at hx
    rcases List.mem_append.mp hx with hx | hx
    · cases hv : (a.viewer <|> s.viewers i) with
      | none =>
          rw [hv] at hx
          cases hx
      | some v =>
          rw [hv] at hx
          obtain ⟨url, hurl, rfl⟩ := List.mem_map.mp hx
          obtain ⟨v', hv', hmay⟩ := hhanded url hurl
          rw [hv] at hv'
          cases hv'
          exact hmay
    · exact hs.handed x hx
  · intro url hurl
    have hmem : url ∈ pc'.urls ++ s.service.shared.urls := hurls ▸ hurl
    rcases List.mem_append.mp hmem with hurl | hurl
    · obtain ⟨v, hv, -⟩ := hhanded url hurl
      refine ⟨⟨v, url⟩, ?_, rfl⟩
      rw [called_uploads, hv]
      exact List.mem_append_left _ (List.mem_map.mpr ⟨url, hurl, rfl⟩)
    · obtain ⟨x, hx, heq⟩ := hs.known url hurl
      exact ⟨x, List.mem_append_right _ hx, heq⟩
  · exact hd.traced hs.traced
  · intro x hx
    obtain ⟨y, hy, heq⟩ := hs.used x hx
    exact ⟨y, List.mem_append_right _ hy, heq⟩
  · intro j v id row hj
    exact hfinished (hs.visits j v id row hj)
  · intro x hx
    obtain ⟨hfin, hexp⟩ := hs.redirects x hx
    refine ⟨hfinished hfin, ?_⟩
    show x.url.expiresAt ≤ d'.now + _
    rwa [hd.now]

/-- The environment hands out no URL, and time goes on. -/
theorem env_urls {e : Env} (he : env h d e = some d') : d'.urls = d.urls ∧ d.now ≤ d'.now := by
  cases e with
  | tick dt =>
      cases he
      exact ⟨rfl, Nat.le_add_right ..⟩
  | upload url body =>
      simp only [Files.env] at he
      split at he
      · cases he
        exact ⟨rfl, le_refl _⟩
      · cases he
  | lifecycle k u =>
      cases he
      exact ⟨rfl, le_refl _⟩

/-- A step of the environment keeps the site isolated: an upload goes through a URL that was
handed out. -/
theorem Isolated.env {e : Env} (hs : Isolated s) (he : env h s.service.shared e = some d') :
    Isolated (s.moved e ⟨d', s.service.proc⟩) := by
  obtain ⟨hfiles, -⟩ := env_files he
  obtain ⟨hurls, hnow⟩ := env_urls he
  constructor
  · exact hs.versions.env he
  · show LockedPending d'
    unfold LockedPending
    rw [hfiles]
    exact hs.locked
  · intro j p hp
    show (d'.files p.1).Held j
    rw [hfiles]
    exact hs.holding j p hp
  · show OwnKeys d'
    unfold OwnKeys
    rw [hfiles]
    exact hs.keys
  · exact hs.calls
  · exact hs.handed
  · intro url hurl
    exact hs.known url (hurls ▸ hurl)
  · exact hs.traced.env he
  · intro x hx
    cases e with
    | upload url body =>
        rcases List.mem_cons.mp hx with rfl | hx
        · simp only [Files.env] at he
          split at he
          · next hok => exact hs.known url hok.1
          · cases he
        · exact hs.used x hx
    | tick dt => exact hs.used x hx
    | lifecycle k u => exact hs.used x hx
  · intro j v id row hj
    exact (hs.visits j v id row hj).congr hfiles
  · intro x hx
    obtain ⟨hfin, hexp⟩ := hs.redirects x hx
    refine ⟨hfin.congr hfiles, ?_⟩
    show x.url.expiresAt ≤ d'.now + _
    omega

/-- A visit goes on; what it may sign is finished. -/
theorem Isolated.setVisit {v : Visit} (hs : Isolated s)
    (hv : ∀ u id row, v = .sign u id row → Finished s.service.shared u id row.key) :
    Isolated (s.setVisit j v) := by
  refine ⟨hs.versions, hs.locked, hs.holding, hs.keys, hs.calls, hs.handed, hs.known, hs.traced,
    hs.used, ?_, hs.redirects⟩
  intro k u id row hk
  change Function.update s.visits j v k = .sign u id row at hk
  by_cases hkj : k = j
  · subst hkj
    rw [Function.update_self] at hk
    exact hv u id row hk
  · rw [Function.update_of_ne hkj] at hk
    exact hs.visits k u id row hk

/-- A download that goes on has found a finished file the viewer may read. -/
theorem downloadFind_finished {u : AccessClaims} {id' : FileId}
    (hv : downloadFind d viewer id = .sign u id' row) : Finished d u id' row.key := by
  unfold downloadFind at hv
  split at hv
  · cases hv
  · next r hrow =>
      split at hv
      · next hc =>
          cases hv
          obtain ⟨hb, howner⟩ := checkOwned_owner hrow
          exact ⟨row, hb, hc, rfl, howner⟩
      · cases hv

/-- Every step keeps the site isolated. -/
theorem Isolated.next {l : Step} (hs : Isolated s) (hn : (site h).next s l = some t) :
    Isolated t := by
  cases l with
  | service l =>
      cases l with
      | call i a =>
          obtain ⟨u, hu, rfl⟩ := Option.map_eq_some_iff.mp hn
          obtain ⟨d, pc, hst, rfl⟩ := Procs.next_call hu
          exact hs.call hst
      | env e =>
          obtain ⟨u, hu, rfl⟩ := Option.map_eq_some_iff.mp hn
          obtain ⟨d, he, rfl⟩ := Procs.next_env hu
          exact hs.env he
  | download j viewer id =>
      change (match s.visits j with
        | .absent => some (s.setVisit j (.find viewer id))
        | _ => none) = some t at hn
      split at hn
      · cases hn
        exact hs.setVisit nofun
      · cases hn
  | go j =>
      change s.go j = some t at hn
      unfold Site.go at hn
      split at hn
      · cases hn
        exact hs.setVisit fun u id row heq => downloadFind_finished heq
      · next viewer id row hvisit =>
          cases hn
          have hfin := hs.visits j viewer id row hvisit
          have hset := hs.setVisit (j := j) (v := .done (.ok ⟨row.key,
            s.service.shared.now + secs downloadUrlTtlSec⟩)) nofun
          refine ⟨hset.versions, hset.locked, hset.holding, hset.keys, hset.calls, hset.handed,
            hset.known, hset.traced, hset.used, hset.visits, ?_⟩
          intro x hx
          rcases List.mem_cons.mp hx with rfl | hx
          · exact ⟨hfin, le_refl _⟩
          · exact hs.redirects x hx
      · cases hn

/-- At the start nothing is handed out and nothing stored. -/
theorem Isolated.init (hi : Site.Init h s) : Isolated s := by
  obtain ⟨⟨⟨hfiles, hobj, hup, hurls⟩, hidle⟩, -, hup', hvisits, hred, hsent⟩ := hi
  have hnone : ∀ id, (s.service.shared.files id).base = none := by
    intro id
    rw [hfiles id]
    rfl
  constructor
  · exact Versions.init ⟨hfiles, hobj, hup, hurls⟩
  · intro id l hl
    rw [hfiles id] at hl
    cases hl
  · intro i p hp
    rw [hidle i] at hp
    cases hp
  · intro id r hb
    rw [hnone id] at hb
    cases hb
  · intro i
    rw [hidle i]
    trivial
  · intro x hx
    rw [hup'] at hx
    cases hx
  · intro url hurl
    rw [hurls] at hurl
    cases hurl
  · constructor
    · intro key o ho
      rw [hobj key] at ho
      cases ho
    · intro u up hu
      rw [hup u] at hu
      cases hu
  · intro x hx
    rw [hsent] at hx
    cases hx
  · intro j v id row hj
    rw [hvisits j] at hj
    cases hj
  · intro x hx
    rw [hred] at hx
    cases hx

/-- In every reachable state: what a redirect leads to is a finished file, of the viewer if the
viewer is no admin; the bytes there have been put with URLs that were handed to the owner of the
file, or to an admin; and no redirect lasts for more than a minute from now. -/
theorem downloads_isolated (hs : (site h).Reachable s) :
    ∀ x ∈ s.redirects, x.url.expiresAt ≤ s.service.shared.now + secs downloadUrlTtlSec ∧
      ∃ row, (s.service.shared.files x.id).base = some row ∧ row.status = .completed ∧
        row.key = x.url.key ∧ (row.ownerId = x.viewer.sub ∨ x.viewer.role = .admin) ∧
        (∀ y ∈ s.uploads, y.url.key = row.key →
          y.viewer.sub = row.ownerId ∨ y.viewer.role = .admin) ∧
        ∀ body, s.fetch x.url = some body → ∃ bodies : List Bytes, body = bodies.flatten ∧
          ∀ part ∈ bodies, ∃ y ∈ s.uploads, y.url.key = row.key ∧ (y.url, part) ∈ s.sent := by
  have hiso : Isolated s :=
    hs.invariant (fun _ hi => Isolated.init hi) fun _ _ _ hn hu => hu.next hn
  intro x hx
  obtain ⟨⟨row, hb, hc, hkey, howner⟩, hexp⟩ := hiso.redirects x hx
  refine ⟨hexp, row, hb, hc, hkey, howner, ?_, ?_⟩
  · intro y hy heq
    have hmay := hiso.handed y hy
    unfold MayUse at hmay
    rw [heq, hiso.keys x.id row hb] at hmay
    exact hmay.imp_left Eq.symm
  · intro body hbody
    unfold Site.fetch at hbody
    split at hbody
    · obtain ⟨o, ho, rfl⟩ := Option.map_eq_some_iff.mp hbody
      obtain ⟨bodies, heq, hput⟩ := hiso.traced.objects _ o ho
      refine ⟨bodies, heq, ?_⟩
      intro part hpart
      obtain ⟨url, hsent, hurl⟩ := hput part hpart
      obtain ⟨y, hy, hyurl⟩ := hiso.used _ hsent
      have hyurl' : y.url = url := hyurl
      refine ⟨y, hy, ?_, hyurl'.symm ▸ hsent⟩
      rw [hyurl', hurl, hkey]
    · cases hbody

/-! ## One picture, uploaded and fetched -/

def opened : Site := ⟨start, fun _ => none, [], fun _ => .absent, [], []⟩

/-- A buyer uploads a picture and asks for it. -/
def pngFetched : List Step :=
  (pngIntent ++ [Act.env (Env.upload pngUrl pngHead)] ++ pngCommit).map Step.service ++
    [.download 0 buyer 1, .go 0, .go 0]

theorem opened_init : Site.Init plainHashes opened :=
  ⟨start_init plainHashes, fun _ => rfl, rfl, fun _ => rfl, rfl, rfl⟩

/-- A file is uploaded, committed, and fetched through its redirect. -/
theorem downloads_isolated_png : ∃ s x, (site plainHashes).Reachable s ∧ s.redirects = [x] ∧
    x.viewer = buyer ∧ s.fetch x.url = some pngHead ∧
    ∃ bodies : List Bytes, pngHead = bodies.flatten ∧
      ∀ part ∈ bodies, ∃ y ∈ s.uploads, (y.url, part) ∈ s.sent ∧
        (y.viewer.sub = 7 ∨ y.viewer.role = .admin) := by
  have hrun : ∃ s o, (site plainHashes).exec (fun _ _ => true) opened pngFetched = some s ∧
      s.redirects = [⟨buyer, 1, ⟨pngUrl.key, 0 + secs downloadUrlTtlSec⟩⟩] ∧
      s.service.shared.now = 0 ∧ s.service.shared.bucket.objects pngUrl.key = some o ∧
      o.body = pngHead := ⟨_, _, rfl, rfl, rfl, rfl, rfl⟩
  obtain ⟨s, o, hexec, hred, hnow, ho, hbody⟩ := hrun
  obtain ⟨x, hred, hviewer, hfetch⟩ : ∃ x, s.redirects = [x] ∧ x.viewer = buyer ∧
      s.fetch x.url = some pngHead := by
    refine ⟨_, hred, rfl, ?_⟩
    unfold Site.fetch
    rw [hnow, if_pos (by decide), ho, Option.map_some, hbody]
  have hs : (site plainHashes).Reachable s := ⟨opened, _, opened_init, Machine.exec_always hexec⟩
  obtain ⟨-, row, -, -, -, howner, hhanded, hbytes⟩ :=
    downloads_isolated hs x (by rw [hred]; exact List.mem_singleton.mpr rfl)
  obtain ⟨bodies, hflat, hparts⟩ := hbytes pngHead hfetch
  refine ⟨s, x, hs, hred, hviewer, hfetch, bodies, hflat, ?_⟩
  intro part hpart
  obtain ⟨y, hy, hkey, hsent⟩ := hparts part hpart
  refine ⟨y, hy, hsent, ?_⟩
  have hseven : row.ownerId = 7 := by
    rw [hviewer] at howner
    rcases howner with howner | hadmin
    · exact howner
    · cases hadmin
  rw [← hseven]
  exact hhanded y hy hkey

end Marketplace.Files
