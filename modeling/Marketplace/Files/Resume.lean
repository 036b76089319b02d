import Marketplace.Files.Allowlist
import Marketplace.Files.Identity
import Marketplace.Files.Parts

/-!
# Files.Resume — what resume asks for, and when commit completes

In every reachable state the parts of an open upload are parts of its file's plan
(`fits_of_filed`), because a URL is signed for one part number and one length. So
`signFor` asks for exactly the part numbers that are missing, and `completeFromStorage`
completes the upload exactly when none is.

Between ListParts and CompleteMultipartUpload others may step in. What was listed stays the whole
plan (`listing_reachable`); the storage completes it if every listed part is still the one that
was listed, and otherwise changes nothing.
-/

namespace Marketplace.Files

open Core Auth

/-! ## What is missing, and what is whole -/

/-- `signFor` answers with the uploaded part numbers in order, and with a URL for each part
of the plan that is not among them, in order and signed for its length. -/
def AsksForMissing (h : Hashes) (i : ℕ) (d : Db) (id : FileId) (row : FileRow) (u : UploadId)
    (up : Upload) (plan : PartPlan) : Prop :=
  ∃ d' uploaded urls,
    stmt h i d (.sign id row) .run = some (d', Pc.returns (.multipart id row.key plan.partSize
      plan.partCount uploaded urls)) ∧
    uploaded.Pairwise (· < ·) ∧ (∀ n, n ∈ uploaded ↔ (up.parts n).isSome) ∧
    urls = ((List.range' 1 plan.partCount).filter fun n => n ∉ uploaded).map (fun n =>
      { key := row.key, kind := .part u n, contentLength := partLength plan row.size n,
        expiresAt := d.now + secs partUrlTtlSec }) ∧
    ∀ url ∈ urls, url ∈ d'.urls

/-- Every part of the plan is there. -/
def AllThere (up : Upload) (plan : PartPlan) : Prop :=
  ∀ n, 1 ≤ n → n ≤ plan.partCount → (up.parts n).isSome

/-- The listed parts are the parts of the plan in ascending order, of the size of the row
together. -/
def WholePlan (row : FileRow) (plan : PartPlan) (parts : List UploadedPart) : Prop :=
  parts.map UploadedPart.partNumber = List.range' 1 plan.partCount ∧
    (parts.map UploadedPart.size).sum = row.size

/-- Each listed part is still the one that was listed. -/
def StillListed (h : Hashes) (up : Upload) (parts : List UploadedPart) : Prop :=
  ∀ p ∈ parts, ∃ body, up.parts p.partNumber = some body ∧ h.single body = p.etag

/-- The call of CompleteMultipartUpload puts an object of the size of the row together, closes the
upload, and changes nothing else. -/
def MakesWhole (h : Hashes) (i : ℕ) (d : Db) (id : FileId) (row : FileRow) (u : UploadId)
    (parts : List UploadedPart) : Prop :=
  ∃ o, o.body.length = row.size ∧ stmt h i d (.commitComplete id row u parts) .run =
    some ({ d with bucket := { d.bucket with
      objects := Function.update d.bucket.objects row.key (some o)
      uploads := Function.update d.bucket.uploads u none } }, .commitHead id row)

/-- `completeFromStorage` calls CompleteMultipartUpload with all parts of the plan in order, which
makes an object of the size of the row; or it throws a 409 and changes nothing, if a part is
missing. -/
def CompletesWhole (h : Hashes) (i : ℕ) (d : Db) (id : FileId) (row : FileRow) (u : UploadId)
    (up : Upload) (plan : PartPlan) : Prop :=
  (AllThere up plan → ∃ parts,
    stmt h i d (.commitParts id row u) .run = some (d, .commitComplete id row u parts) ∧
    WholePlan row plan parts ∧ StillListed h up parts ∧ MakesWhole h i d id row u parts) ∧
  (¬ AllThere up plan → ∃ message,
    stmt h i d (.commitParts id row u) .run = some (d, Pc.throws 409 message))

/-- What the call of CompleteMultipartUpload does, whatever has happened since ListParts. -/
def CompletesListed (h : Hashes) (i : ℕ) (d : Db) (id : FileId) (row : FileRow) (u : UploadId)
    (parts : List UploadedPart) : Prop :=
  match d.bucket.openUpload row.key u with
  | none => stmt h i d (.commitComplete id row u parts) .run = some (d, .commitHead id row)
  | some up =>
      (StillListed h up parts → MakesWhole h i d id row u parts) ∧
      (¬ StillListed h up parts →
        stmt h i d (.commitComplete id row u parts) .run = some (d, Pc.fail "InvalidPart"))

/-! ## The parts of an open upload -/

variable {h : Hashes} {i : ℕ} {d d' : Db} {pc pc' : Pc} {id : FileId} {row : FileRow}
  {u : UploadId} {up : Upload} {plan : PartPlan}

theorem threshold_pos : 0 < multipartThresholdBytes := by decide

/-- A row above the threshold has the plan of its size. -/
theorem Planned.hasPlan (hp : Planned row) (hsize : multipartThresholdBytes < row.size) :
    ∃ plan, planParts row.size = .ok plan ∧ row.partSize = some plan.partSize ∧
      row.partCount = some plan.partCount := by
  unfold Planned at hp
  rwa [if_pos hsize] at hp

/-- A part of the row is one the plan numbers, with the length the plan gives it. -/
theorem PartOf.planned {n len : ℕ} (hpart : PartOf row n len)
    (hsize : row.partSize = some plan.partSize) (hcount : row.partCount = some plan.partCount) :
    1 ≤ n ∧ n ≤ plan.partCount ∧ len = partLength plan row.size n := by
  obtain ⟨plan', hsize', hcount', hpos, hle, hlen⟩ := hpart
  have hplan : plan' = plan := by
    rw [hsize] at hsize'
    rw [hcount] at hcount'
    cases plan
    cases plan'
    cases hsize'
    cases hcount'
    rfl
  subst hplan
  exact ⟨hpos, hle, hlen⟩

/-- The parts of an open upload fit the plan of the row under whose key it is. -/
theorem fits_of_filed {G : History} (hf : FiledDb G d) (ho : Of G id row)
    (hup : d.bucket.openUpload row.key u = some up) (hsize : row.partSize = some plan.partSize)
    (hcount : row.partCount = some plan.partCount) : Fits up plan row.size := by
  intro n body hbody
  obtain ⟨hu, hkey⟩ := openUpload_some hup
  obtain ⟨id', f, hid', hkey', hparts⟩ := hf.bucket.uploads u up hu
  obtain ⟨b, hb, hof⟩ := ho
  -- the upload under the key of the row is of the file of the row
  have heq : id' = id := hf.rows.keys id' id f b hid' hb (by rw [← hkey', hkey, hof.key])
  subst heq
  rw [hb] at hid'
  cases hid'
  exact (hof.partOf.mpr (hparts n body hbody)).planned hsize hcount

/-! ## signFor -/

/-- An open upload is listed. -/
theorem listParts_open (hup : d.bucket.openUpload row.key u = some up) :
    d.bucket.listParts h row.key u = some (up.listed h) := by
  unfold Bucket.listParts
  rw [hup]
  rfl

/-- Signing asks for the parts that are missing, with URLs for these and no others. -/
theorem signFor_asks (hu : row.uploadId = some u)
    (hup : d.bucket.openUpload row.key u = some up) (hsize : row.partSize = some plan.partSize)
    (hcount : row.partCount = some plan.partCount) (hfit : Fits up plan row.size)
    (hc : Covers plan row.size) : AsksForMissing h i d id row u up plan := by
  let uploaded := (up.listed h).map UploadedPart.partNumber
  let urls : List PresignedUrl := ((List.range' 1 plan.partCount).filter fun n =>
    n ∉ uploaded).map fun n =>
      { key := row.key, kind := .part u n, contentLength := partLength plan row.size n,
        expiresAt := d.now + secs partUrlTtlSec }
  refine ⟨{ d with urls := urls ++ d.urls }, uploaded, urls, ?_, ?_, ?_, rfl, ?_⟩
  · simp only [stmt, signFor, hu, listParts_open hup, hsize, hcount, Option.getD_some]
    rfl
  · exact List.pairwise_map.mpr listed_sorted
  · intro n
    have hnumbers : uploaded = (List.range' 1 plan.partCount).filter fun n => (up.parts n).isSome :=
      hfit.numbers hc
    rw [hnumbers, List.mem_filter]
    constructor
    · rintro ⟨-, hsome⟩
      exact hsome
    · intro hsome
      obtain ⟨body, hbody⟩ := Option.isSome_iff_exists.mp hsome
      obtain ⟨hpos, hle, -⟩ := hfit n body hbody
      exact ⟨List.mem_range'_1.mpr ⟨hpos, by omega⟩, hsome⟩
  · intro url hurl
    exact List.mem_append_left _ hurl

/-! ## completeFromStorage -/

/-- What was listed is still there. -/
theorem mem_listed_still : StillListed h up (up.listed h) := by
  intro p hp
  obtain ⟨-, body, hbody, hetag, -⟩ := mem_listed.mp hp
  exact ⟨body, hbody, hetag.symm⟩

/-- The storage finds a body for each listed part exactly if none has been replaced. -/
theorem listedBodies_iff {parts : List UploadedPart} :
    (∃ bodies, Bucket.listedBodies h up parts = some bodies) ↔ StillListed h up parts := by
  induction parts with
  | nil => exact ⟨fun _ => nofun, fun _ => ⟨[], rfl⟩⟩
  | cons p ps ih =>
      unfold Bucket.listedBodies
      cases hbody : (up.parts p.partNumber).filter fun body => h.single body == p.etag with
      | none =>
          constructor
          · rintro ⟨bodies, hnone⟩
            cases hnone
          · intro hstill
            obtain ⟨body, hsome, hetag⟩ := hstill p List.mem_cons_self
            rw [hsome, Option.filter_some, hetag, beq_self_eq_true, if_pos rfl] at hbody
            cases hbody
      | some body =>
          obtain ⟨hsome, hetag⟩ := Option.filter_eq_some_iff.mp hbody
          dsimp only
          constructor
          · rintro ⟨bodies, hall⟩
            obtain ⟨rest, hrest, -⟩ := Option.map_eq_some_iff.mp hall
            intro q hq
            rcases List.mem_cons.mp hq with rfl | hq
            · exact ⟨body, hsome, by simpa using hetag⟩
            · exact ih.mp ⟨rest, hrest⟩ q hq
          · intro hstill
            obtain ⟨rest, hrest⟩ := ih.mpr fun q hq => hstill q (List.mem_cons_of_mem p hq)
            exact ⟨body :: rest, by rw [hrest]; rfl⟩

/-- The bodies that the storage finds have the planned lengths. -/
theorem Fits.listedBodies_length (hfit : Fits up plan row.size) {parts : List UploadedPart}
    {bodies : List Bytes} (hbodies : Bucket.listedBodies h up parts = some bodies) :
    bodies.map List.length =
      (parts.map UploadedPart.partNumber).map (partLength plan row.size) := by
  induction parts generalizing bodies with
  | nil =>
      cases hbodies
      rfl
  | cons p ps ih =>
      unfold Bucket.listedBodies at hbodies
      split at hbodies
      · cases hbodies
      · next body hbody =>
          obtain ⟨rest, hrest, rfl⟩ := Option.map_eq_some_iff.mp hbodies
          obtain ⟨hsome, -⟩ := Option.filter_eq_some_iff.mp hbody
          rw [List.map_cons, List.map_cons, List.map_cons, ih hrest,
            (hfit p.partNumber body hsome).2.2]

/-- The step of CompleteMultipartUpload. -/
theorem commitComplete_listed {parts : List UploadedPart} (hwhole : WholePlan row plan parts)
    (hc : Covers plan row.size)
    (hfit : ∀ up, d.bucket.openUpload row.key u = some up → Fits up plan row.size) :
    CompletesListed h i d id row u parts := by
  unfold CompletesListed
  split
  · next hnone => simp only [stmt, commitComplete, Bucket.completeMultipart, hnone]
  · next up hup =>
      constructor
      · intro hstill
        obtain ⟨bodies, hbodies⟩ := listedBodies_iff.mpr hstill
        refine ⟨⟨bodies.flatten, h.multipart (parts.map UploadedPart.etag)⟩, ?_, ?_⟩
        · change bodies.flatten.length = row.size
          rw [List.length_flatten, (hfit up hup).listedBodies_length hbodies, hwhole.1,
            partLength_sum hc]
        · simp only [stmt, commitComplete, Bucket.completeMultipart, hup, hbodies]
      · intro hreplaced
        have hnone : Bucket.listedBodies h up parts = none := by
          cases hbodies : Bucket.listedBodies h up parts with
          | none => rfl
          | some bodies => exact absurd (listedBodies_iff.mp ⟨bodies, hbodies⟩) hreplaced
        simp only [stmt, commitComplete, Bucket.completeMultipart, hup, hnone]

/-- A complete listing is the whole plan. -/
theorem Fits.wholePlan (hfit : Fits up plan row.size) (hc : Covers plan row.size)
    (hall : AllThere up plan) : WholePlan row plan (up.listed h) := by
  have hnumbers : (up.listed h).map UploadedPart.partNumber = List.range' 1 plan.partCount := by
    rw [hfit.numbers hc, List.filter_eq_self]
    intro n hn
    have hrange := List.mem_range'_1.mp hn
    exact hall n hrange.1 (by omega)
  refine ⟨hnumbers, ?_⟩
  have hsizes : (up.listed h).map UploadedPart.size =
      ((up.listed h).map UploadedPart.partNumber).map (partLength plan row.size) := by
    rw [List.map_map]
    exact List.map_congr_left hfit.sizes
  rw [hsizes, hnumbers]
  exact partLength_sum hc

/-- ListParts and the two checks: all parts are there, or it is a 409. -/
theorem commitParts_eq (h : Hashes) (id : FileId)
    (hup : d.bucket.openUpload row.key u = some up)
    (hsize : row.partSize = some plan.partSize) (hcount : row.partCount = some plan.partCount)
    (hfit : Fits up plan row.size) (hc : Covers plan row.size) :
    (AllThere up plan → commitParts h d id row u = .commitComplete id row u (up.listed h)) ∧
    (¬ AllThere up plan → ∃ message, commitParts h d id row u = Pc.throws 409 message) := by
  have hwrong : (up.listed h).find? (fun p => p.size != partLength
      ⟨row.partSize.getD 0, row.partCount.getD 0⟩ row.size p.partNumber) = none := by
    rw [List.find?_eq_none]
    intro p hp
    rw [hsize, hcount]
    simpa using hfit.sizes p hp
  constructor
  · intro hall
    have hcnt : ¬ (some (up.listed h).length ≠ row.partCount) := by
      rw [(hfit.length_iff (h := h) hc).mpr hall, hcount]
      exact not_not.mpr rfl
    simp only [commitParts, listParts_open hup, if_neg hcnt, hwrong]
  · intro hmissing
    have hcnt : some (up.listed h).length ≠ row.partCount := by
      rw [hcount]
      exact fun heq => hmissing ((hfit.length_iff hc).mp (Option.some.inj heq))
    refine ⟨s!"parts uploaded {(up.listed h).length} of {row.partCount.getD 0}", ?_⟩
    simp only [commitParts, listParts_open hup, if_pos hcnt]

/-- A commit goes on to completing exactly if all parts are there, and then the object is whole.
-/
theorem completeFromStorage_whole (hup : d.bucket.openUpload row.key u = some up)
    (hsize : row.partSize = some plan.partSize) (hcount : row.partCount = some plan.partCount)
    (hfit : Fits up plan row.size) (hc : Covers plan row.size) :
    CompletesWhole h i d id row u up plan := by
  obtain ⟨hyes, hno⟩ := commitParts_eq h id hup hsize hcount hfit hc
  constructor
  · intro hall
    have hwhole : WholePlan row plan (up.listed h) := hfit.wholePlan hc hall
    have hcomplete : CompletesListed h i d id row u (up.listed h) := by
      refine commitComplete_listed hwhole hc ?_
      intro up' hup'
      rw [hup] at hup'
      cases hup'
      exact hfit
    unfold CompletesListed at hcomplete
    rw [hup] at hcomplete
    refine ⟨up.listed h, ?_, hwhole, mem_listed_still, hcomplete.1 mem_listed_still⟩
    simp only [stmt, hyes hall]
  · intro hmissing
    obtain ⟨message, heq⟩ := hno hmissing
    exact ⟨message, by simp only [stmt, heq]⟩

/-! ## What a call has listed -/

/-- A file above the threshold is completed with its whole plan. -/
def Listing : Pc → Prop
  | .commitComplete _ row _ parts => multipartThresholdBytes < row.size →
      ∃ plan, planParts row.size = .ok plan ∧ WholePlan row plan parts
  | _ => True

/-- A call that is not completing has no list in hand. -/
theorem Listing.of_not_completes (hpc : ¬ pc.Completes) : Listing pc := by
  cases pc with
  | commitComplete _ _ _ _ => exact absurd trivial hpc
  | _ => trivial

/-- The plan of a row above the threshold, which its parts fit. -/
theorem FiledDb.rowPlan {G : History} (hf : FiledDb G d) (ho : Of G id row)
    (hsize : multipartThresholdBytes < row.size) :
    ∃ plan, planParts row.size = .ok plan ∧ row.partSize = some plan.partSize ∧
      row.partCount = some plan.partCount ∧ Covers plan row.size ∧
      ∀ up, d.bucket.openUpload row.key u = some up → Fits up plan row.size := by
  obtain ⟨b, hb, hof⟩ := ho
  obtain ⟨plan, hok, hps, hpc⟩ := (hof.planned (hf.rows.plans id b hb)).hasPlan hsize
  exact ⟨plan, hok, hps, hpc, plan_bounds hok (Nat.lt_trans threshold_pos hsize),
    fun up hup => fits_of_filed hf ⟨b, hb, hof⟩ hup hps hpc⟩

/-- A commit that is completing has the list of the parts that were there. -/
theorem Next.listing {G : History} (hn : Next h d d' pc pc') (hf : FiledDb G d)
    (hk : FiledCall G i d pc) : Listing pc' := by
  cases hn with
  | plain hp _ =>
      refine Listing.of_not_completes ?_
      cases pc' with
      | commitComplete _ _ _ _ => exact hp.elim
      | _ => exact False.elim
  | checks =>
      rcases intentChecks_cases _ _ _ with ⟨err, heq⟩ | ⟨ext, plan, heq, -⟩
      · rw [heq]
        trivial
      · rw [heq]
        trivial
  | load _ _ hnot => exact Listing.of_not_completes hnot
  | pass _ _ hnot => exact Listing.of_not_completes hnot
  | head _ _ _ => trivial
  | read _ _ _ => trivial
  -- all parts of the plan were there, or the call would have been refused
  | @list id row u parts hlist hd =>
      intro hsize
      obtain ⟨plan, hok, hps, hcnt, hcov, hfit⟩ := FiledDb.rowPlan (u := u) hf hk.1 hsize
      refine ⟨plan, hok, ?_⟩
      cases hup : d.bucket.openUpload row.key u with
      | none =>
          have hgone : commitParts h d id row u = .commitGone id row := by
            simp only [commitParts, Bucket.listParts, hup, Option.map_none]
          rw [hgone] at hlist
          cases hlist
      | some up =>
          obtain ⟨hyes, hno⟩ := commitParts_eq h id hup hps hcnt (hfit up hup) hcov
          by_cases hall : AllThere up plan
          · rw [hyes hall] at hlist
            cases hlist
            exact (hfit up hup).wholePlan hcov hall
          · obtain ⟨message, heq⟩ := hno hall
            rw [heq] at hlist
            cases hlist

/-- In every reachable state a call that is about to complete has listed the whole plan. -/
theorem listing_reachable {s : St} (hs : (machine h).Reachable s) : ∀ i, Listing (s.proc i) := by
  refine Machine.Reachable.invariant_of (P := fun s => ∀ i, Listing (s.proc i)) ?_ ?_ hs
  · intro s hinit i
    rw [hinit.2 i]
    trivial
  · intro s l t hreach hn hk
    cases l with
    | env e =>
        obtain ⟨d, -, rfl⟩ := Procs.next_env hn
        exact hk
    | call i a =>
        obtain ⟨d, p, hst, rfl⟩ := Procs.next_call hn
        obtain ⟨G, hdb, hcalls⟩ := filed_reachable hreach
        exact Procs.forall_update (Q := fun _ => Listing)
          ((stmt_next hst).listing hdb (hcalls i)) fun j _ => hk j

/-! ## Every run -/

/-- Resume asks for exactly what is missing, and that is enough; in whatever pages the
storage lists the parts. -/
theorem resume_exact (h : Hashes) (s : St) (hs : (machine h).Reachable s) :
    (∀ i id row u up, s.proc i = .sign id row → multipartThresholdBytes < row.size →
      row.uploadId = some u → s.shared.bucket.openUpload row.key u = some up →
      ∃ plan, planParts row.size = .ok plan ∧ AsksForMissing h i s.shared id row u up plan) ∧
    (∀ i id row u up, s.proc i = .commitParts id row u → multipartThresholdBytes < row.size →
      s.shared.bucket.openUpload row.key u = some up →
      ∃ plan, planParts row.size = .ok plan ∧ CompletesWhole h i s.shared id row u up plan) ∧
    (∀ i id row u parts, s.proc i = .commitComplete id row u parts →
      multipartThresholdBytes < row.size →
      ∃ plan, planParts row.size = .ok plan ∧ WholePlan row plan parts ∧
        CompletesListed h i s.shared id row u parts) ∧
    ∀ key u pageSize, (∀ m, 0 < pageSize m) →
      s.shared.bucket.listPartsPaged h pageSize key u = s.shared.bucket.listParts h key u := by
  obtain ⟨G, hdb, hcalls⟩ := filed_reachable hs
  refine ⟨?_, ?_, ?_, ?_⟩
  · intro i id row u up hpc hsize hu hup
    have ho := hcalls i
    rw [hpc] at ho
    obtain ⟨plan, hok, hps, hcnt, hcov, hfit⟩ := FiledDb.rowPlan hdb ho hsize
    exact ⟨plan, hok, signFor_asks hu hup hps hcnt (hfit up hup) hcov⟩
  · intro i id row u up hpc hsize hup
    have ho := hcalls i
    rw [hpc] at ho
    obtain ⟨plan, hok, hps, hcnt, hcov, hfit⟩ := FiledDb.rowPlan hdb ho.1 hsize
    exact ⟨plan, hok, completeFromStorage_whole hup hps hcnt (hfit up hup) hcov⟩
  · intro i id row u parts hpc hsize
    have ho := hcalls i
    have hlisted := listing_reachable hs i
    rw [hpc] at ho hlisted
    obtain ⟨plan, hok, -, -, hcov, hfit⟩ := FiledDb.rowPlan hdb ho.1 hsize
    obtain ⟨plan', hok', hwhole⟩ := hlisted hsize
    rw [hok] at hok'
    cases hok'
    exact ⟨plan, hok, hwhole, commitComplete_listed hwhole hcov hfit⟩
  · intro key u pageSize hpos
    exact listPartsPaged_eq s.shared.bucket hpos key u

/-! ## An archive in two parts -/

/-- An intent for an archive one byte above the threshold, up to its answer. -/
def archiveIntent : List Label :=
  [.call 1 (.intent buyer ⟨"application/gzip", multipartThresholdBytes + 1⟩ none), .call 1 .run,
    .call 1 .run, .call 1 .run]

def archivePlan : PartPlan := ⟨5 * miB, 2⟩

theorem planParts_archive : planParts (multipartThresholdBytes + 1) = .ok archivePlan := by decide

/-- The URL for a part of the archive. -/
def partUrl (row : FileRow) (n : ℕ) : PresignedUrl where
  key := row.key
  kind := .part 0 n
  contentLength := partLength archivePlan row.size n
  expiresAt := secs partUrlTtlSec

/-- The archive is on its way: `row` is its row and `up` its upload, and no time has passed. -/
structure Underway (s : St) (row : FileRow) (up : Upload) : Prop where
  reach : (machine plainHashes).Reachable s
  file : s.shared.files 1 = Slot.settled (some row)
  upload : s.shared.bucket.openUpload row.key 0 = some up
  owner : row.ownerId = buyer.sub
  pending : row.status = .pending
  size : row.size = multipartThresholdBytes + 1
  recorded : row.uploadId = some 0
  now : s.shared.now = 0

/-- Signing changes nothing but the URLs handed out. -/
theorem signFor_frame (h : Hashes) (d : Db) (id : FileId) (row : FileRow) :
    ∃ urls, (signFor h d id row).1 = { d with urls := urls } := by
  unfold signFor
  split
  · exact ⟨_, rfl⟩
  · split <;> exact ⟨_, rfl⟩

/-- The upload with a new body for one part. -/
def Upload.withPart (up : Upload) (n : ℕ) (body : Bytes) : Upload :=
  { up with parts := Function.update up.parts n (some body) }

/-- The answer hands out a URL for each part that is not there. -/
theorem Underway.signed {s : St} (hs : Underway s row up) (hpc : s.proc i = .sign 1 row)
    (hasks : AsksForMissing plainHashes i s.shared 1 row 0 up archivePlan) :
    ∃ t, (machine plainHashes).next s (.call i .run) = some t ∧ Underway t row up ∧
      (∀ n ∈ [1, 2], up.parts n = none → partUrl row n ∈ t.shared.urls) ∧
      ∀ j, j ≠ i → t.proc j = s.proc j := by
  obtain ⟨d', uploaded, urls, hst, -, huploaded, hurls, hin⟩ := hasks
  have hn := next_at hpc hst
  have hd : d' = (signFor plainHashes s.shared 1 row).1 :=
    congrArg Prod.fst (Option.some.inj hst).symm
  obtain ⟨all, hall⟩ := signFor_frame plainHashes s.shared 1 row
  rw [hall] at hd
  refine ⟨_, hn, ?_, ?_, fun j hj => Function.update_of_ne hj ..⟩
  · subst hd
    exact ⟨hs.reach.next hn, hs.file, hs.upload, hs.owner, hs.pending, hs.size, hs.recorded,
      hs.now⟩
  · intro n hmem hmissing
    refine hin _ ?_
    rw [hurls, List.mem_map]
    refine ⟨n, ?_, by rw [hs.now, Nat.zero_add]; rfl⟩
    rw [List.mem_filter]
    refine ⟨hmem, decide_eq_true ?_⟩
    rw [huploaded, hmissing]
    exact Bool.false_ne_true

/-- A part is uploaded through its URL. -/
theorem Underway.uploaded {s : St} {n : ℕ} (body : Bytes) (hs : Underway s row up)
    (hurl : partUrl row n ∈ s.shared.urls)
    (hlen : body.length = partLength archivePlan row.size n) :
    ∃ t, (machine plainHashes).next s (.env (.upload (partUrl row n) body)) = some t ∧
      Underway t row (up.withPart n body) ∧ t.proc = s.proc := by
  have hlive : s.shared.now < (partUrl row n).expiresAt := by
    rw [hs.now]
    exact (by decide : 0 < secs partUrlTtlSec)
  have hbucket : s.shared.bucket.usePresigned plainHashes (partUrl row n) body =
      { s.shared.bucket with
        uploads := Function.update s.shared.bucket.uploads 0 (some (up.withPart n body)) } := by
    simp only [Bucket.usePresigned, partUrl, Bucket.putPart, hs.upload, Upload.withPart]
  have henv : env plainHashes s.shared (.upload (partUrl row n) body) = some { s.shared with
      bucket := s.shared.bucket.usePresigned plainHashes (partUrl row n) body } :=
    if_pos ⟨hurl, hlive, hlen⟩
  have hn := next_of_env henv
  refine ⟨_, hn, ⟨hs.reach.next hn, hs.file, ?_, hs.owner, hs.pending, hs.size, hs.recorded,
    hs.now⟩, rfl⟩
  obtain ⟨-, hkey⟩ := openUpload_some hs.upload
  change (s.shared.bucket.usePresigned plainHashes (partUrl row n) body).openUpload row.key 0 = _
  rw [hbucket]
  unfold Bucket.openUpload
  dsimp only
  rw [Function.update_self, Option.filter_some, Upload.withPart, hkey, beq_self_eq_true,
    if_pos rfl]

/-- A call that looks the row up. -/
theorem Underway.found {s : St} {a : Stmt} {find pc' : Pc} (hs : Underway s row up)
    (hidle : s.proc i = .idle)
    (hbegin : stmt plainHashes i s.shared .idle a = some (s.shared, find))
    (hfind : stmt plainHashes i s.shared find .run = some (s.shared, pc')) :
    ∃ t, (machine plainHashes).Run Machine.Always s [.call i a, .call i .run] t ∧
      Underway t row up ∧ t.proc i = pc' ∧ t.shared = s.shared ∧
      ∀ j, j ≠ i → t.proc j = s.proc j := by
  have hn₁ := next_at hidle hbegin
  have hn₂ := next_at
    (s := ⟨s.shared, Function.update s.proc i find⟩) (Function.update_self ..) hfind
  have hr : (machine plainHashes).Run Machine.Always s [.call i a, .call i .run] _ :=
    Machine.Run.cons trivial hn₁ (Machine.Run.once hn₂)
  refine ⟨_, hr, ⟨hs.reach.run hr, hs.file, hs.upload, hs.owner, hs.pending, hs.size, hs.recorded,
    hs.now⟩, Function.update_self .., rfl, ?_⟩
  intro j hj
  change Function.update (Function.update s.proc i find) i pc' j = s.proc j
  rw [Function.update_of_ne hj, Function.update_of_ne hj]

theorem Underway.owned {s : St} (hs : Underway s row up) :
    checkOwned buyer (s.shared.files 1).base = .ok row := by
  rw [hs.file]
  simp [checkOwned, hs.owner]

theorem Underway.resumes {s : St} (hs : Underway s row up) :
    stmt plainHashes i s.shared (.resumeFind buyer 1) .run = some (s.shared, .sign 1 row) := by
  simp [stmt, resumeFind, hs.owned, hs.pending, hs.recorded]

theorem Underway.commits {s : St} (hs : Underway s row up) :
    stmt plainHashes i s.shared (.commitFind buyer 1) .run =
      some (s.shared, .commitParts 1 row 0) := by
  simp [stmt, commitFind, hs.owned, hs.pending, hs.recorded]

/-- One part is uploaded, another process resumes and is asked for the other one, and the commit
puts the two together. -/
theorem resume_exact_archive : ∃ s t v row up both o,
    (machine plainHashes).Reachable s ∧ s.proc 2 = .sign 1 row ∧ (up.parts 1).isSome ∧
    AsksForMissing plainHashes 2 s.shared 1 row 0 up archivePlan ∧
    (machine plainHashes).Reachable t ∧ t.proc 3 = .commitParts 1 row 0 ∧
    CompletesWhole plainHashes 3 t.shared 1 row 0 both archivePlan ∧
    (machine plainHashes).Run Machine.Always t [.call 3 .run, .call 3 .run] v ∧
    v.shared.bucket.objects row.key = some o ∧
    o.body.length = multipartThresholdBytes + 1 := by
  have hrun : ∃ s row up,
      (machine plainHashes).exec (fun _ _ => true) start archiveIntent = some s ∧
      s.proc 1 = .sign 1 row ∧ (∀ j, j ≠ 1 → s.proc j = .idle) ∧
      s.shared.files 1 = Slot.settled (some row) ∧
      s.shared.bucket.openUpload row.key 0 = some up ∧ up.parts = (fun _ => none) ∧
      row.ownerId = buyer.sub ∧ row.status = .pending ∧
      row.size = multipartThresholdBytes + 1 ∧ row.uploadId = some 0 ∧ s.shared.now = 0 := by
    refine ⟨_, _, _, rfl, rfl, ?_, rfl, rfl, rfl, rfl, rfl, rfl, rfl, rfl⟩
    intro j hj
    simp [start, hj]
  obtain ⟨s₁, row, up, hexec, hpc₁, hidle₁, hfile, hup, hnone, howner, hpending, hsize, hu, hnow⟩ :=
    hrun
  have hbig : multipartThresholdBytes < row.size := hsize ▸ Nat.lt_succ_self _
  have hplan : planParts row.size = .ok archivePlan := hsize ▸ planParts_archive
  -- the intent is asked for both parts, and the client uploads the first one
  have h₁ : Underway s₁ row up := ⟨⟨start, _, start_init plainHashes, Machine.exec_always hexec⟩,
    hfile, hup, howner, hpending, hsize, hu, hnow⟩
  obtain ⟨plan, hok, hasks₁⟩ :=
    (resume_exact plainHashes s₁ h₁.reach).1 1 1 row 0 up hpc₁ hbig hu hup
  rw [hplan] at hok
  cases hok
  obtain ⟨s₂, -, h₂, hurls₂, hprocs₂⟩ := h₁.signed hpc₁ hasks₁
  obtain ⟨s₃, -, h₃, hproc₃⟩ := h₂.uploaded (n := 1)
    (List.replicate (partLength archivePlan row.size 1) 0) (hurls₂ 1 (by decide) (by rw [hnone]))
    List.length_replicate
  -- another process resumes: it is asked for the second one
  have hidle₃ : ∀ j, j ≠ 1 → s₃.proc j = .idle := by
    intro j hj
    rw [hproc₃, hprocs₂ j hj, hidle₁ j hj]
  obtain ⟨s₄, -, h₄, hpc₄, -, hprocs₄⟩ :=
    h₃.found (i := 2) (a := .resume buyer 1) (hidle₃ 2 (by decide)) rfl h₃.resumes
  obtain ⟨plan, hok, hasks₄⟩ :=
    (resume_exact plainHashes s₄ h₄.reach).1 2 1 row 0 _ hpc₄ hbig hu h₄.upload
  rw [hplan] at hok
  cases hok
  obtain ⟨s₅, -, h₅, hurls₅, hprocs₅⟩ := h₄.signed hpc₄ hasks₄
  obtain ⟨s₆, -, h₆, hproc₆⟩ := h₅.uploaded (n := 2)
    (List.replicate (partLength archivePlan row.size 2) 0)
    (hurls₅ 2 (by decide) (by simp [Upload.withPart, hnone])) List.length_replicate
  -- with both there the commit completes the upload
  have hidle₆ : s₆.proc 3 = .idle := by
    rw [hproc₆, hprocs₅ 3 (by decide), hprocs₄ 3 (by decide), hidle₃ 3 (by decide)]
  obtain ⟨s₇, -, h₇, hpc₇, -, -⟩ :=
    h₆.found (i := 3) (a := .commit buyer 1) hidle₆ rfl h₆.commits
  obtain ⟨plan, hok, hwhole⟩ :=
    (resume_exact plainHashes s₇ h₇.reach).2.1 3 1 row 0 _ hpc₇ hbig h₇.upload
  rw [hplan] at hok
  cases hok
  have hall : AllThere
      ((up.withPart 1 (List.replicate (partLength archivePlan row.size 1) 0)).withPart 2
        (List.replicate (partLength archivePlan row.size 2) 0)) archivePlan := by
    intro n hpos hle
    have hn : n = 1 ∨ n = 2 := by
      have hle' : n ≤ 2 := hle
      omega
    rcases hn with rfl | rfl <;> simp [Upload.withPart]
  obtain ⟨parts, hlist, -, -, o, hlen, hcomplete⟩ := hwhole.1 hall
  -- the step that lists the parts, and the one that completes the upload
  have hn₁ := next_at hpc₇ hlist
  have hn₂ := next_at
    (s := ⟨s₇.shared, Function.update s₇.proc 3 (.commitComplete 1 row 0 parts)⟩)
    (Function.update_self ..) hcomplete
  refine ⟨s₄, s₇, _, row, _, _, o, h₄.reach, hpc₄, ?_, hasks₄, h₇.reach, hpc₇, hwhole,
    Machine.Run.cons trivial hn₁ (Machine.Run.once hn₂), ?_, hlen.trans hsize⟩
  · simp [Upload.withPart]
  · exact Function.update_self ..

end Marketplace.Files
