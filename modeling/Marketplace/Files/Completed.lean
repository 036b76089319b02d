import Marketplace.Files.Allowlist

/-!
# Files.Completed — is a COMPLETED file what commit checked?

`commit` looks at the object (HeadObject, then the first bytes) and marks the row
COMPLETED in a later statement; nothing ties the object down in between or
afterwards. The client's upload URL is still good after the commit
(`completed_not_checked`), another commit or a sweep may delete the object.

`completed_checked`: as long as no step changes an object that some row or some call
has already taken for checked, every COMPLETED row describes its object. The call that
is between its checks and its UPDATE carries the fact in `Verified`.
-/

namespace Marketplace.Files

open Core Auth

/-! ## The object a row describes -/

/-- The object that a COMPLETED row `row` describes. -/
def Describes (row : FileRow) (o : StoredObject) : Prop :=
  o.body.length = row.size ∧ magicMatches row.contentType (o.body.take magicBytes) = .ok true ∧
    row.etag = some o.etag

/-- Every COMPLETED row describes the object under its key. -/
def CompletedChecked (d : Db) : Prop :=
  ∀ id row, (d.files id).base = some row → row.status = .completed →
    ∃ o, d.bucket.objects row.key = some o ∧ Describes row o

/-- The call has passed the size check on the object under `key` and goes on to its
UPDATE. -/
def Pc.Relies (key : ObjectKey) : Pc → Prop
  | .commitRead _ row _ | .commitUpdate _ row _ _ => row.key = key
  | _ => False

/-- The object under `key` has been checked: a COMPLETED row has the key, or a commit
is past its size check. -/
def Relied (s : St) (key : ObjectKey) : Prop :=
  (∃ id row, (s.shared.files id).base = some row ∧ row.status = .completed ∧ row.key = key) ∨
  ∃ i, (s.proc i).Relies key

/-- The step changes no object that has been checked. -/
def ObjectsKept (h : Hashes) (s : St) (l : Label) : Prop :=
  ∀ t, (machine h).next s l = some t → ∀ key, Relied s key →
    t.shared.bucket.objects key = s.shared.bucket.objects key

/-! ## Between the checks and the UPDATE -/

/-- What a commit has seen of the object. -/
def Verified (d : Db) : Pc → Prop
  | .commitRead _ row head =>
      ∃ o, d.bucket.objects row.key = some o ∧ o.body.length = row.size ∧ o.etag = head.etag
  | .commitUpdate _ row head _ =>
      ∃ o, d.bucket.objects row.key = some o ∧ o.body.length = row.size ∧ o.etag = head.etag ∧
        magicMatches row.contentType (o.body.take magicBytes) = .ok true
  | _ => True

/-- A call without an object in hand has verified none and need not. -/
theorem Verified.of_plain {d : Db} {pc : Pc} (hp : pc.Plain) : Verified d pc := by
  cases pc with
  | commitRead _ _ _ | commitUpdate _ _ _ _ => exact hp.elim
  | _ => trivial

/-- A call that has just read its row has verified nothing yet. -/
theorem Verified.of_loaded {d : Db} {pc : Pc} {id : FileId} {row : FileRow}
    (hp : pc.Loaded id row) : Verified d pc := by
  cases pc with
  | commitRead _ _ _ | commitUpdate _ _ _ _ => exact hp.elim
  | _ => trivial

/-- What a call relies on stays, if the object does. -/
theorem Verified.kept {d d' : Db} {pc : Pc}
    (hobj : ∀ key, pc.Relies key → d'.bucket.objects key = d.bucket.objects key)
    (hk : Verified d pc) : Verified d' pc := by
  cases pc with
  | commitRead id row head =>
      obtain ⟨o, ho, hrest⟩ := hk
      exact ⟨o, (hobj row.key rfl).trans ho, hrest⟩
  | commitUpdate id row head magic =>
      obtain ⟨o, ho, hrest⟩ := hk
      exact ⟨o, (hobj row.key rfl).trans ho, hrest⟩
  | _ => trivial

/-- The checks of an intent look at no object. -/
theorem intentChecks_verified (d : Db) (viewer : AccessClaims) (input : IntentInput)
    (key : Option String) : Verified d (intentChecks viewer input key) := by
  rcases intentChecks_cases viewer input key with ⟨err, herr⟩ | ⟨ext, plan, hins, -⟩
  · rw [herr]
    trivial
  · rw [hins]
    trivial

/-- A statement of a commit sees the object as its next step relies on it. -/
theorem Next.verified {h : Hashes} {d d' : Db} {pc pc' : Pc} (hn : Next h d d' pc pc')
    (hk : Verified d pc) : Verified d' pc' := by
  cases hn with
  | plain hp _ => exact Verified.of_plain hp
  | checks => exact intentChecks_verified _ _ _ _
  | load _ hp _ => exact Verified.of_loaded hp
  | list _ _ => trivial
  | pass _ hp' _ => exact Verified.of_loaded hp'
  | head hh hsize hd =>
      subst hd
      unfold Bucket.head at hh
      rw [Option.map_eq_some_iff] at hh
      obtain ⟨o, ho, rfl⟩ := hh
      exact ⟨o, ho, hsize, rfl⟩
  | read hread hm hd =>
      subst hd
      obtain ⟨o, ho, hlen, hetag⟩ := hk
      unfold Bucket.readRange at hread
      rw [ho] at hread
      cases hread
      exact ⟨o, ho, hlen, hetag, hm⟩

/-! ## Every run -/

def Inv (d : Db) : Prop := Versions d ∧ CompletedChecked d

def Loc (i : ℕ) (d : Db) (pc : Pc) : Prop := Checked i d pc ∧ Verified d pc

/-- One statement keeps every COMPLETED row checked. -/
theorem stmt_completed {h : Hashes} {i : ℕ} {d d' : Db} {pc pc' : Pc} {a : Stmt}
    (hinv : Inv d) (hloc : Loc i d pc) (hst : stmt h i d pc a = some (d', pc'))
    (hrow : ∀ id row, (d.files id).base = some row → row.status = .completed →
      d'.bucket.objects row.key = d.bucket.objects row.key)
    (hpc : ∀ key, pc.Relies key → d'.bucket.objects key = d.bucket.objects key) :
    CompletedChecked d' := by
  intro id row hb' hc
  cases (stmt_effect hst).rowChange hinv.1 id with
  | keep heq =>
      rw [heq] at hb'
      rw [hrow id row hb' hc]
      exact hinv.2 id row hb' hc
  | gone heq =>
      rw [heq] at hb'
      cases hb'
  | insert _ _ heq =>
      rw [heq] at hb'
      cases hb'
      cases hc
  | setUpload hb heq =>
      rw [heq] at hb'
      cases hb'
      obtain ⟨o, ho, hdesc⟩ := hinv.2 id _ hb hc
      exact ⟨o, (hrow id _ hb hc).trans ho, hdesc⟩
  -- the UPDATE writes what the HEAD and the read have found
  | @complete row₀ r head magic hb _ heq =>
      rw [heq] at hb'
      cases hb'
      obtain ⟨⟨hsame, -⟩, o, ho, hlen, hetag, hm⟩ := hloc
      obtain ⟨hkey, hct, hsize⟩ := hsame.2 r hb
      refine ⟨o, ?_, ?_, ?_, ?_⟩
      · change d'.bucket.objects r.key = some o
        rw [hkey, hpc row₀.key rfl]
        exact ho
      · exact hlen.trans hsize.symm
      · change magicMatches r.contentType _ = _
        rw [hct]
        exact hm
      · exact congrArg some hetag.symm

/-- As long as the objects are kept, every completed row describes the object under its key. -/
theorem completed_run {h : Hashes} {s t : St} {as : List Label}
    (hr : (machine h).Run (ObjectsKept h) s as t) (hs : Procs.Holds Inv Loc s) :
    Procs.Holds Inv Loc t := by
  refine Procs.noninterference (ObjectsKept h) Inv Loc ?_ ?_ hr hs
  · intro s i a d p hok hs hst
    have hst' : stmt h i s.shared (s.proc i) a = some (d, p) := hst
    have hnext : (machine h).next s (.call i a) = some ⟨d, Function.update s.proc i p⟩ := by
      have hst'' : (procs h).stmt i s.shared (s.proc i) a = some (d, p) := hst
      change ((procs h).stmt i s.shared (s.proc i) a).map _ = _
      rw [hst'']
      rfl
    have hkept := hok _ hnext
    have he := stmt_effect hst'
    have hn := stmt_next hst'
    refine ⟨⟨he.versions hs.1.1, ?_⟩, ⟨hn.checked hs.1.1 he (hs.2 i).1, hn.verified (hs.2 i).2⟩, ?_⟩
    · refine stmt_completed hs.1 (hs.2 i) hst' ?_ ?_
      · intro id row hb hc
        exact hkept row.key (Or.inl ⟨id, row, hb, hc, rfl⟩)
      · intro key hkey
        exact hkept key (Or.inr ⟨i, hkey⟩)
    · intro j _
      refine ⟨(hs.2 j).1.mono fun id row hrow => hrow.effect he hs.1.1, ?_⟩
      exact (hs.2 j).2.kept fun key hkey => hkept key (Or.inr ⟨j, hkey⟩)
  · intro s e d hok hs he
    -- the environment writes no row
    have he' : env h s.shared e = some d := he
    have hnext : (machine h).next s (.env e) = some ⟨d, s.proc⟩ := by
      change ((procs h).env s.shared e).map _ = _
      rw [he]
      rfl
    have hkept := hok _ hnext
    obtain ⟨hf, hn⟩ := env_files he'
    refine ⟨⟨hs.1.1.env he', ?_⟩, ?_⟩
    · intro id row hb hc
      rw [hf] at hb
      obtain ⟨o, ho, hdesc⟩ := hs.1.2 id row hb hc
      exact ⟨o, (hkept row.key (Or.inl ⟨id, row, hb, hc, rfl⟩)).trans ho, hdesc⟩
    · intro j
      refine ⟨(hs.2 j).1.mono ?_, ?_⟩
      · intro id row hrow
        unfold SameFile
        rw [hf, hn]
        exact hrow
      · exact (hs.2 j).2.kept fun key hkey => hkept key (Or.inr ⟨j, hkey⟩)

/-- An object that a call or a row relies on is there. -/
theorem relied_object {s : St} {key : ObjectKey} (hs : Procs.Holds Inv Loc s)
    (hr : Relied s key) : ∃ o, s.shared.bucket.objects key = some o := by
  rcases hr with ⟨id, row, hb, hc, rfl⟩ | ⟨i, hi⟩
  · obtain ⟨o, ho, -⟩ := hs.1.2 id row hb hc
    exact ⟨o, ho⟩
  · have hv := (hs.2 i).2
    generalize s.proc i = pc at hi hv
    cases pc with
    | commitRead id row head =>
        obtain ⟨o, ho, -⟩ := hv
        exact ⟨o, hi ▸ ho⟩
    | commitUpdate id row head magic =>
        obtain ⟨o, ho, -⟩ := hv
        exact ⟨o, hi ▸ ho⟩
    | _ => exact hi.elim

/-- At the start there is no row. -/
theorem completed_init {h : Hashes} {s : St} (hinit : (machine h).Init s) :
    Procs.Holds Inv Loc s := by
  refine ⟨⟨Versions.init hinit.1, ?_⟩, ?_⟩
  · intro id row hb
    rw [hinit.1.1 id, Slot.settled_base] at hb
    cases hb
  · intro i
    rw [hinit.2 i]
    exact ⟨trivial, trivial⟩

/-- In a run that changes no object once it has been checked, every COMPLETED row
describes its object. -/
theorem completed_checked (h : Hashes) (s₀ s : St) (as : List Label)
    (hinit : (machine h).Init s₀) (hr : (machine h).Run (ObjectsKept h) s₀ as s) :
    CompletedChecked s.shared :=
  (completed_run hr (completed_init hinit)).1.2

/-! ## Which steps write objects -/

/-- A call that does not complete an upload and does not delete an object. -/
def Pc.LeavesObjects : Pc → Bool
  | .commitComplete _ _ _ _ | .commitDelete _ _ _ | .sweepObject _ _ _ => false
  | _ => true

theorem abortMultipart_objects (key : ObjectKey) (u : UploadId) (b : Bucket) :
    (b.abortMultipart key u).objects = b.objects := by
  unfold Bucket.abortMultipart
  split <;> rfl

/-- Most statements leave the objects alone. -/
theorem stmt_objects {h : Hashes} {i : ℕ} {d d' : Db} {pc pc' : Pc} {a : Stmt}
    (hst : stmt h i d pc a = some (d', pc')) (hp : pc.LeavesObjects = true) :
    d'.bucket.objects = d.bucket.objects := by
  cases (stmt_does hst).stored with
  | same heq => rw [heq]
  | create heq =>
      rw [heq]
      rfl
  | complete _ _ => cases hp
  | delete hdel _ => cases pc <;> first | exact hdel.elim | cases hp
  | abort heq =>
      rw [heq]
      exact abortMultipart_objects _ _ _

/-- A step that writes no object at all. -/
def quiet (s : St) : Label → Bool
  | .call i _ => (s.proc i).LeavesObjects
  | .env (.upload _ _) => false
  | .env _ => true

/-- What the concrete run checks is the condition of the theorem. -/
theorem quiet_kept (h : Hashes) (s : St) (l : Label) (hq : quiet s l = true) :
    ObjectsKept h s l := by
  intro t hn key _
  cases l with
  | call i a =>
      obtain ⟨d, p, hst, rfl⟩ := Procs.next_call hn
      exact congrFun (stmt_objects hst hq) key
  | env e =>
      obtain ⟨d, he, rfl⟩ := Procs.next_env hn
      have he' : env h s.shared e = some d := he
      cases e with
      | tick dt =>
          cases he'
          rfl
      | upload url body => cases hq
      | lifecycle k u =>
          cases he'
          exact congrFun (abortMultipart_objects k u s.shared.bucket) key

/-! ## One picture, uploaded once or twice -/

def pngHead : Bytes := [0x89, 0x50, 0x4e, 0x47, 0x0d, 0x0a, 0x1a, 0x0a]

def pngUrl : PresignedUrl := ⟨⟨7, 0, "png"⟩, .put "image/png", 8, secs putUrlTtlSec⟩

/-- An intent for a picture of eight bytes, answered with its URL. -/
def pngIntent : List Label :=
  [.call 1 (.intent buyer ⟨"image/png", 8⟩ none), .call 1 .run, .call 1 .run]

/-- Its commit. -/
def pngCommit : List Label :=
  [.call 2 (.commit buyer 1), .call 2 .run, .call 2 .run, .call 2 .run, .call 2 .run]

/-- The upload URL outlives the commit: a second PUT replaces what was checked. -/
theorem completed_not_checked :
    ¬ ∀ s, (machine plainHashes).Reachable s → CompletedChecked s.shared := by
  intro hall
  have hrun : ∃ s row o, (machine plainHashes).exec (fun _ _ => true) start
        (pngIntent ++ [.env (.upload pngUrl pngHead)] ++ pngCommit ++
          [.env (.upload pngUrl [0, 0, 0, 0, 0, 0, 0, 0])]) = some s ∧
      (s.shared.files 1).base = some row ∧ row.status = .completed ∧
      s.shared.bucket.objects row.key = some o ∧
      magicMatches row.contentType (o.body.take magicBytes) = .ok false :=
    ⟨_, _, _, rfl, rfl, rfl, rfl, rfl⟩
  obtain ⟨s, row, o, hexec, hb, hc, ho, hm⟩ := hrun
  have hr := Machine.exec_always hexec
  obtain ⟨o', ho', -, hm', -⟩ := hall s ⟨start, _, start_init plainHashes, hr⟩ 1 row hb hc
  rw [ho] at ho'
  cases ho'
  rw [hm] at hm'
  cases hm'

/-- Uploaded once, the picture is what the row says. -/
theorem completed_checked_png : ∃ s row, (machine plainHashes).Run (ObjectsKept plainHashes)
      start (pngIntent ++ [.env (.upload pngUrl pngHead)] ++ pngCommit) s ∧
    (s.shared.files 1).base = some row ∧ row.status = .completed ∧
    CompletedChecked s.shared := by
  have hrun : ∃ s₁ s₂ s row, (machine plainHashes).exec quiet start pngIntent = some s₁ ∧
      (machine plainHashes).next s₁ (.env (.upload pngUrl pngHead)) = some s₂ ∧
      (machine plainHashes).exec quiet s₂ pngCommit = some s ∧
      s₁.shared.bucket.objects = (fun _ => none) ∧
      (s.shared.files 1).base = some row ∧ row.status = .completed :=
    ⟨_, _, _, _, rfl, rfl, rfl, rfl, rfl, rfl⟩
  obtain ⟨s₁, s₂, s, row, h₁, h₂, h₃, hempty, hb, hc⟩ := hrun
  have hr₁ := Machine.exec_run (quiet_kept plainHashes) h₁
  -- nothing is in the bucket yet, so nothing is relied on
  have hkept : ObjectsKept plainHashes s₁ (.env (.upload pngUrl pngHead)) := by
    intro t _ key hrel
    obtain ⟨o, ho⟩ :=
      relied_object (completed_run hr₁ (completed_init (start_init plainHashes))) hrel
    rw [hempty] at ho
    cases ho
  have hr := (hr₁.trans (Machine.Run.single hkept h₂)).trans
    (Machine.exec_run (quiet_kept plainHashes) h₃)
  exact ⟨s, row, hr, hb, hc,
    completed_checked plainHashes start s _ (start_init plainHashes) hr⟩

end Marketplace.Files
