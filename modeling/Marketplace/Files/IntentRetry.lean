import Marketplace.Files.Allowlist
import Marketplace.Files.Identity

/-!
# Files.IntentRetry — does a failed intent block its own retry?

`intent` inserts its row, creates the multipart upload and records it, each in a statement
of its own, and may fail between any two. What is left is a file of that Idempotency-Key in
some state, and the retry has to go on from it. It does from every state but one: a row in
parts whose upload has not been recorded answers 409 to every retry (`half_made_blocks`).

* `Resumable` is what the retry needs of the row it finds, and `Midway` follows the retry
  through its statements while other calls go on elsewhere;
* `Sound` is what the intents of one key, failed or not, keep of its file;
* `retry_iff`: the retry is served exactly if every row of the key is resumable, which after
  intents alone means that the file is not half made.
-/

namespace Marketplace.Files

open Core Auth

/-! ## What a retry is answered -/

/-- `row` is the committed row of this owner and key. -/
def HasKey (o : UserId) (k : String) (d : Db) (id : FileId) (row : FileRow) : Prop :=
  (d.files id).base = some row ∧ hasKey o k row = true

/-- The step leaves the file of the key alone: its row, and what uploads it has open. -/
def Leaves (o : UserId) (k : String) (d d' : Db) : Prop :=
  ∀ id row, HasKey o k d id row → d'.files id = d.files id ∧
    ∀ u, (d.bucket.openUpload row.key u).isSome → (d'.bucket.openUpload row.key u).isSome

namespace Pc

/-- The call is an intent, or has not begun. -/
def Intends : Pc → Prop
  | .idle | .intentInsert _ _ _ _ _ | .intentFind _ _ _ | .intentCreate _ _
  | .intentUpdate _ _ _ | .sign _ _ => True
  | _ => False

/-- The call is working on the file of the key. -/
def OfKey (o : UserId) (k : String) : Pc → Prop
  | .intentInsert v _ _ _ key => v.sub = o ∧ key = some k
  | .intentFind v _ key => v.sub = o ∧ key = k
  | .intentCreate _ row | .intentUpdate _ row _ | .sign _ row => hasKey o k row = true
  | _ => False

/-- The call is about to insert a file of the key. -/
def Inserts (o : UserId) (k : String) : Pc → Prop
  | .intentInsert v _ _ _ key => v.sub = o ∧ key = some k
  | _ => False

/-- Statements an intent has still to make, at most. -/
def left : Pc → ℕ
  | .idle => 5
  | .intentInsert _ _ _ _ _ => 4
  | .intentCreate _ _ => 3
  | .intentUpdate _ _ _ | .intentFind _ _ _ => 2
  | .sign _ _ => 1
  | _ => 0

end Pc

/-- So far the file of the key is the business of intents only, failed or not, and all with
this body. -/
structure OnlyIntents (h : Hashes) (o : UserId) (k : String) (input : IntentInput) (s : St)
    (l : Label) : Prop where
  body : ∀ j v inp, l = .call j (.intent v inp (some k)) → v.sub = o → inp = input
  others : ∀ t, (machine h).next s l = some t →
    (∃ j a, l = .call j a ∧ (s.proc j).Intends) ∨ Leaves o k s.shared t.shared

/-- From now on call `i` is the one intent with the key, and its statements and storage calls
succeed; the others leave the file of the key alone. -/
structure Retrying (h : Hashes) (v : AccessClaims) (k : String) (input : IntentInput) (i : ℕ)
    (s : St) (l : Label) : Prop where
  own : ∀ a, l = .call i a → a = .run ∨ s.proc i = .idle ∧ a = .intent v input (some k)
  others : ∀ t, (machine h).next s l = some t →
    (∃ a, l = .call i a) ∨ Leaves v.sub k s.shared t.shared
  alone : ∀ j w inp, l = .call j (.intent w inp (some k)) → w.sub = v.sub → j = i

/-- Upload URLs for the file `id`. -/
def Answers (resp : Response) (id : FileId) (row : FileRow) : Prop :=
  (∃ url, resp = .single id row.key url) ∨
  ∃ partSize partCount uploaded urls,
    resp = .multipart id row.key partSize partCount uploaded urls

/-- The retry of call `i` is served: in every run it can always go on, for at most five
statements, and ends with upload URLs for the one file of the key. -/
def Served (h : Hashes) (v : AccessClaims) (k : String) (input : IntentInput) (i : ℕ) (s : St) :
    Prop :=
  ∀ bs t, (machine h).Run (Retrying h v k input i) s bs t →
    (∃ resp id row, t.proc i = .done (.ok resp) ∧ HasKey v.sub k t.shared id row ∧
      (∀ id' row', HasKey v.sub k t.shared id' row' → id' = id) ∧ Answers resp id row) ∨
    (bs.countP (isCall i) < 5 ∧ ∃ a u, (machine h).next t (.call i a) = some u ∧
      Retrying h v k input i t (.call i a))

/-- The retry of call `i` can go on from the row: nobody is deleting it, it is pending and of
this body, and its upload, if it is in parts, is recorded and open. -/
structure Resumable (i : ℕ) (input : IntentInput) (d : Db) (id : FileId) (row : FileRow) :
    Prop where
  unlocked : (d.files id).Free i ∨ ((d.files id).lock.any fun l => l.2.isSome) = true
  pending : row.status = .pending
  contentType : row.contentType = input.contentType
  size : row.size = input.size
  recorded : row.partCount.isSome → row.uploadId.isSome
  isOpen : ∀ u, row.uploadId = some u → (d.bucket.openUpload row.key u).isSome

/-- Every row of the key is resumable. -/
def Ready (v : AccessClaims) (k : String) (input : IntentInput) (i : ℕ) (d : Db) : Prop :=
  ∀ id row, HasKey v.sub k d id row → Resumable i input d id row

/-- The file of the key is in parts, and its upload is not recorded. -/
def HalfMade (o : UserId) (k : String) (d : Db) : Prop :=
  ∃ id row, HasKey o k d id row ∧ row.partCount.isSome ∧ row.uploadId = none

/-- A failed intent never blocks its own retry: after any number of intents with one key and
body, none of them running any more, the next one is served. -/
def RetryServed (h : Hashes) : Prop :=
  ∀ v k input i s₀ as s, Allowed input.contentType input.size → (machine h).Init s₀ →
    (machine h).Run (OnlyIntents h v.sub k input) s₀ as s → s.proc i = .idle →
    (∀ j, ¬ (s.proc j).OfKey v.sub k) → Served h v k input i s

/-! ## The rows of a key -/

variable {G : History} {h : Hashes} {o : UserId} {k : String} {input : IntentInput} {i j : ℕ}
  {v : AccessClaims} {d d' : Db} {pc pc' : Pc} {a : Stmt} {id : FileId} {row r : FileRow}
  {u : UploadId}

theorem hasKey_iff : hasKey o k row = true ↔ row.ownerId = o ∧ row.idempotencyKey = some k := by
  simp [hasKey]

/-- What is found under a key is a row with it. -/
theorem findByKey_some (hfind : findByKey d o k = some id) : ∃ row, HasKey o k d id row := by
  have hp := List.find?_some hfind
  rw [Option.any_eq_true] at hp
  obtain ⟨row, hb, hrow⟩ := hp
  exact ⟨row, hb, hrow⟩

/-- Where nothing is found under a key, no row has it. -/
theorem findByKey_none (hv : Versions d) (hfind : findByKey d o k = none) :
    ¬ HasKey o k d id row := by
  rintro ⟨hb, hrow⟩
  unfold findByKey at hfind
  rw [List.find?_eq_none] at hfind
  have hn := hfind id (List.mem_range.mpr (hv.lt hb))
  rw [hb] at hn
  exact hn hrow

/-- Where a row of the key comes from. -/
theorem Does.hasKey_back (hd : Does h i d pc a d' pc') (hv : Versions d)
    (hkey : HasKey o k d' id row) :
    (∃ r, HasKey o k d id r ∧ r.key = row.key) ∨
    ∃ v inp ext plan, pc = .intentInsert v inp ext plan (some k) ∧ v.sub = o ∧
      id = d.nextFile ∧ row = newRow d v inp ext plan (some k) ∧ d' = insertRow d row ∧
      findByKey d o k = none := by
  obtain ⟨hb', hrow⟩ := hkey
  have hchange := hd.effect.rowChange hv id
  -- a row with the key was there before, or is the one an intent inserts now
  cases hchange with
  | keep heq => exact Or.inl ⟨row, ⟨heq ▸ hb', hrow⟩, rfl⟩
  | gone heq =>
      rw [heq] at hb'
      cases hb'
  | @insert v inp ext plan key hid _ heq =>
      rw [heq] at hb'
      cases hb'
      obtain ⟨ho, hk⟩ := hasKey_iff.mp hrow
      have hkey : key = some k := hk
      subst hkey
      cases hd with
      | insert heq' hnone =>
          subst heq'
          exact Or.inr ⟨v, inp, ext, plan, rfl, ho, hid, rfl, rfl, ho ▸ hnone k rfl⟩
      | conflict _ => exact absurd hid (Nat.ne_of_lt (hv.lt heq))
      | abort _ =>
          change ((d.files id).rollback i).base = _ at heq
          rw [Slot.rollback_base] at heq
          exact absurd hid (Nat.ne_of_lt (hv.lt heq))
  | setUpload hb heq =>
      rw [heq] at hb'
      cases hb'
      exact Or.inl ⟨_, ⟨hb, hrow⟩, rfl⟩
  | complete hb _ heq =>
      rw [heq] at hb'
      cases hb'
      exact Or.inl ⟨_, ⟨hb, hrow⟩, rfl⟩

/-- No two files have one owner and key. -/
theorem oneFile_reachable {s : St} (hs : (machine h).Reachable s) :
    ∀ o k id id' row row', HasKey o k s.shared id row → HasKey o k s.shared id' row' →
      id = id' := by
  refine Machine.Reachable.invariant_of (P := fun s => ∀ o k id id' row row',
    HasKey o k s.shared id row → HasKey o k s.shared id' row' → id = id') ?_ ?_ hs
  · intro s hinit o k id id' row row' hkey
    have hb := hkey.1
    rw [hinit.1.1 id, Slot.settled_base] at hb
    cases hb
  · intro s l t hreach hn hone o k id id' row row' hkey hkey'
    have hv := (checked_reachable hreach).1
    cases l with
    | env e =>
        obtain ⟨d, he, rfl⟩ := Procs.next_env hn
        unfold HasKey at hkey hkey'
        rw [(env_files he).1] at hkey hkey'
        exact hone o k id id' row row' hkey hkey'
    | call i a =>
        obtain ⟨d, p, hst, rfl⟩ := Procs.next_call hn
        have hd : Does h i s.shared (s.proc i) a d p := stmt_does hst
        -- the INSERT looks for the key, so a new row is the only one
        rcases hd.hasKey_back hv hkey with ⟨r, hr, -⟩ | ⟨_, _, _, _, -, -, hid, -, -, hnone⟩
        · rcases hd.hasKey_back hv hkey' with ⟨r', hr', -⟩ | ⟨_, _, _, _, -, -, -, -, -, hnone⟩
          · exact hone o k id id' r r' hr hr'
          · exact absurd hr (findByKey_none hv hnone)
        · rcases hd.hasKey_back hv hkey' with ⟨r', hr', -⟩ | ⟨_, _, _, _, -, -, hid', -, -, -⟩
          · exact absurd hr' (findByKey_none hv hnone)
          · rw [hid, hid']

/-! ## The statements of the retry -/

/-- An allowed intent passes the checks. -/
theorem intentChecks_allowed (viewer : AccessClaims) (key : Option String)
    (hallowed : Allowed input.contentType input.size) :
    ∃ ext plan, intentChecks viewer input key = .intentInsert viewer input ext plan key := by
  rcases intentChecks_listed viewer key hallowed.listed with ⟨hn, -⟩ | ⟨-, hgo⟩
  · exact absurd hallowed hn
  · exact hgo

/-- The row of the key is the one the lookup finds. -/
theorem findByKey_eq (hv : Versions d) (hkey : HasKey o k d id row)
    (hone : ∀ id' row', HasKey o k d id' row' → id' = id) : findByKey d o k = some id := by
  cases hfind : findByKey d o k with
  | none => exact absurd hkey (findByKey_none hv hfind)
  | some id' =>
      obtain ⟨row', hkey'⟩ := findByKey_some hfind
      rw [hone id' row' hkey']

/-- The row under the viewer's own key passes the ownership check. -/
theorem checkOwned_hasKey (hkey : HasKey v.sub k d id row) :
    checkOwned v (d.files id).base = .ok row := by
  unfold checkOwned
  rw [hkey.1]
  exact if_neg fun hn => hn.1 (hasKey_iff.mp hkey.2).1

/-- What the lookup of the retry makes of the row of the key. -/
theorem intentFind_found (hkey : HasKey v.sub k d id row) (hfind : findByKey d v.sub k = some id) :
    (row.contentType = input.contentType ∧ row.size = input.size ∧ row.status = .pending ∧
      (row.partCount.isSome → row.uploadId.isSome) ∧ intentFind d v input k = .sign id row) ∨
    (intentFind d v input k).Refused ∨ intentFind d v input k = Pc.returns (.finished id row.key) := by
  unfold intentFind
  rw [hfind]
  dsimp only
  rw [checkOwned_hasKey hkey]
  dsimp only
  split
  · exact Or.inr (Or.inl ⟨_, rfl⟩)
  · next hbody =>
      obtain ⟨hct, hsize⟩ := not_or.mp hbody
      split
      · exact Or.inr (Or.inr rfl)
      · next hp =>
          split
          · exact Or.inr (Or.inl ⟨_, rfl⟩)
          · next hup =>
              refine Or.inl ⟨not_not.mp hct, not_not.mp hsize, ?_, ?_, rfl⟩
              · cases hs : row.status with
                | pending => rfl
                | completed => exact absurd hs hp
              · intro hcount
                cases hu : row.uploadId with
                | none => exact absurd ⟨hcount, by rw [hu]; rfl⟩ hup
                | some u => rfl

/-- A repeated intent that finds its row as it should be goes on to the signing. -/
theorem intentFind_sign (hkey : HasKey v.sub k d id row) (hfind : findByKey d v.sub k = some id)
    (hct : row.contentType = input.contentType) (hsize : row.size = input.size)
    (hp : row.status = .pending) (hrec : row.partCount.isSome → row.uploadId.isSome) :
    intentFind d v input k = .sign id row := by
  unfold intentFind
  rw [hfind]
  dsimp only
  rw [checkOwned_hasKey hkey]
  dsimp only
  have hbody : ¬ (row.contentType ≠ input.contentType ∨ row.size ≠ input.size) := by
    rintro (hn | hn)
    · exact hn hct
    · exact hn hsize
  have hmade : ¬ (row.partCount.isSome ∧ row.uploadId.isNone) := by
    rintro ⟨hcount, hnone⟩
    rw [Option.isNone_iff_eq_none.mp hnone] at hrec
    cases hrec hcount
  rw [if_neg hbody, if_neg (by rw [hp]; decide), if_neg hmade]

/-- `signFor` answers with URLs if the upload of the row, if it has one, is open. -/
theorem signFor_answers :
    (∀ u, row.uploadId = some u → (d.bucket.openUpload row.key u).isSome) ↔
    ∃ resp, (signFor h d id row).2 = Pc.returns resp ∧ Answers resp id row := by
  unfold signFor
  cases hu : row.uploadId with
  | none =>
      refine ⟨fun _ => ⟨_, rfl, Or.inl ⟨_, rfl⟩⟩, ?_⟩
      intro _ u hu'
      cases hu'
  | some u =>
      unfold Bucket.listParts
      dsimp only
      cases hup : d.bucket.openUpload row.key u with
      | none =>
          constructor
          · intro hopen
            have hsome := hopen u rfl
            rw [hup] at hsome
            cases hsome
          · rintro ⟨resp, hresp, -⟩
            cases hresp
      | some up =>
          refine ⟨fun _ => ⟨_, rfl, Or.inr ⟨_, _, _, _, rfl⟩⟩, ?_⟩
          intro _ u' hu'
          cases hu'
          simp [hup]

/-- Signing writes no row. -/
theorem signFor_files (h : Hashes) (d : Db) (id : FileId) (row : FileRow) :
    (signFor h d id row).1.files = d.files := by
  unfold signFor
  split
  · rfl
  · split <;> rfl

theorem createMultipart_open (b : Bucket) (key : ObjectKey) :
    ((b.createMultipart key).1.openUpload key b.nextUpload).isSome := by
  simp [Bucket.createMultipart, Bucket.openUpload]

/-! ## The retry, from a resumable row to its answer -/

/-- Where the retry is, and what of the file of the key it can rely on there. -/
def Midway (v : AccessClaims) (k : String) (input : IntentInput) (i : ℕ) (d : Db) : Pc → Prop
  | .idle => Ready v k input i d
  | .intentInsert w inp _ _ key => w = v ∧ inp = input ∧ key = some k ∧ Ready v k input i d
  | .intentFind w inp key => w = v ∧ inp = input ∧ key = k ∧
      (∃ id row, HasKey v.sub k d id row) ∧ Ready v k input i d
  | .intentCreate id row => d.files id = Slot.settled (some row) ∧ hasKey v.sub k row = true
  | .intentUpdate id row u => d.files id = Slot.settled (some row) ∧ hasKey v.sub k row = true ∧
      (d.bucket.openUpload row.key u).isSome
  | .sign id row => HasKey v.sub k d id row ∧
      ∀ u, row.uploadId = some u → (d.bucket.openUpload row.key u).isSome
  | .done r => ∃ resp id row, r = .ok resp ∧ HasKey v.sub k d id row ∧ Answers resp id row
  | _ => False

/-- A step that leaves the key's rows alone leaves a row with the key. -/
theorem Leaves.hasKey (hl : Leaves o k d d') (hkey : HasKey o k d id row) :
    HasKey o k d' id row := by
  refine ⟨?_, hkey.2⟩
  rw [(hl id row hkey).1]
  exact hkey.1

/-- A step that leaves the key's rows alone leaves them ready. -/
theorem Leaves.ready (hl : Leaves v.sub k d d')
    (hold : ∀ id row, HasKey v.sub k d' id row → ∃ r, HasKey v.sub k d id r)
    (hready : Ready v k input i d) : Ready v k input i d' := by
  intro id row hkey'
  obtain ⟨r, hkey⟩ := hold id row hkey'
  obtain ⟨hfiles, hopen⟩ := hl id r hkey
  have hrow : r = row := by
    have hb := hkey'.1
    rw [hfiles, hkey.1] at hb
    exact Option.some.inj hb
  subst hrow
  obtain ⟨hfree, hp, hct, hsize, hrec, hup⟩ := hready id r hkey
  exact ⟨hfiles ▸ hfree, hp, hct, hsize, hrec, fun u hu => hopen u (hup u hu)⟩

/-- A step that leaves the file of the key alone leaves the retry where it is. -/
theorem Midway.leaves (hm : Midway v k input i d pc) (hl : Leaves v.sub k d d')
    (hold : ∀ id row, HasKey v.sub k d' id row → ∃ r, HasKey v.sub k d id r) :
    Midway v k input i d' pc := by
  have hsettled : ∀ {id : FileId} {row : FileRow}, d.files id = Slot.settled (some row) →
      hasKey v.sub k row = true → HasKey v.sub k d id row := by
    intro id row hfiles hrow
    exact ⟨by rw [hfiles, Slot.settled_base], hrow⟩
  cases pc with
  | idle => exact hl.ready hold hm
  | intentInsert w inp ext plan key =>
      obtain ⟨hw, hinp, hkey, hready⟩ := hm
      exact ⟨hw, hinp, hkey, hl.ready hold hready⟩
  | intentFind w inp key =>
      obtain ⟨hw, hinp, hkey, ⟨id, row, hrow⟩, hready⟩ := hm
      exact ⟨hw, hinp, hkey, ⟨id, row, hl.hasKey hrow⟩, hl.ready hold hready⟩
  | intentCreate id row =>
      obtain ⟨hfiles, hrow⟩ := hm
      exact ⟨(hl id row (hsettled hfiles hrow)).1.trans hfiles, hrow⟩
  | intentUpdate id row u =>
      obtain ⟨hfiles, hrow, hup⟩ := hm
      obtain ⟨hfiles', hopen⟩ := hl id row (hsettled hfiles hrow)
      exact ⟨hfiles'.trans hfiles, hrow, hopen u hup⟩
  | sign id row =>
      obtain ⟨hkey, hup⟩ := hm
      exact ⟨hl.hasKey hkey, fun u hu => (hl id row hkey).2 u (hup u hu)⟩
  | done r =>
      obtain ⟨resp, id, row, hr, hkey, hans⟩ := hm
      exact ⟨resp, id, row, hr, hl.hasKey hkey, hans⟩
  | _ => exact hm.elim

/-- One statement of the retry. -/
theorem Midway.run (hm : Midway v k input i d pc) (hd : Does h i d pc .run d' pc')
    (hv : Versions d) (hone : ∀ id id' row row', HasKey v.sub k d id row →
      HasKey v.sub k d id' row' → id = id') :
    Midway v k input i d' pc' ∧ pc'.left < pc.left := by
  cases hd with
  | @insert w inp ext plan key row hrow _ =>
      obtain ⟨rfl, rfl, rfl, -⟩ := hm
      subst hrow
      have hkey : hasKey w.sub k (newRow d w inp ext plan (some k)) = true :=
        hasKey_iff.mpr ⟨rfl, rfl⟩
      cases plan with
      | some p => exact ⟨⟨insertRow_self, hkey⟩, by simp [Pc.left]⟩
      | none =>
          refine ⟨⟨⟨?_, hkey⟩, nofun⟩, by simp [Pc.left]⟩
          rw [insertRow_self, Slot.settled_base]
  -- the key was taken meanwhile, by a row that is ready for this very input
  | conflict hfind =>
      obtain ⟨rfl, rfl, hk, hready⟩ := hm
      cases hk
      obtain ⟨row, hkey⟩ := findByKey_some hfind
      exact ⟨⟨rfl, rfl, rfl, ⟨_, row, hkey⟩, hready⟩, by simp [Pc.left]⟩
  | find =>
      obtain ⟨rfl, rfl, rfl, ⟨id, row, hkey⟩, hready⟩ := hm
      have hfind := findByKey_eq hv hkey fun id' row' hkey' => hone id' id row' row hkey' hkey
      obtain ⟨-, hp, hct, hsize, hrec, hup⟩ := hready id row hkey
      rw [intentFind_sign hkey hfind hct hsize hp hrec]
      exact ⟨⟨hkey, hup⟩, by simp [Pc.left]⟩
  | @create id row =>
      obtain ⟨hfiles, hrow⟩ := hm
      exact ⟨⟨hfiles, hrow, createMultipart_open _ _⟩, by simp [Pc.left]⟩
  | @setUpload id row r u _ hb =>
      obtain ⟨hfiles, hrow, hup⟩ := hm
      have hr : r = row := by
        rw [hfiles, Slot.settled_base] at hb
        exact (Option.some.inj hb).symm
      subst hr
      refine ⟨⟨⟨?_, hrow⟩, ?_⟩, by simp [Pc.left]⟩
      · rw [setFile_self, Slot.settled_base]
      · intro u' hu'
        cases hu'
        exact hup
  | setNothing hb =>
      rw [hm.1, Slot.settled_base] at hb
      cases hb
  | @sign id row =>
      obtain ⟨hkey, hup⟩ := hm
      obtain ⟨resp, hresp, hans⟩ := (signFor_answers (h := h)).mp hup
      rw [hresp]
      refine ⟨⟨resp, id, row, rfl, ⟨?_, hkey.2⟩, hans⟩, by simp [Pc.left, Pc.returns]⟩
      rw [signFor_files]
      exact hkey.1
  | _ => exact hm.elim

/-- The retry can take its next statement. -/
theorem Midway.enabled (hm : Midway v k input i d pc) (hpc : ∀ r, pc ≠ .done r) :
    0 < pc.left ∧ ∃ a d' pc', stmt h i d pc a = some (d', pc') ∧
      (a = .run ∨ pc = .idle ∧ a = .intent v input (some k)) := by
  cases pc with
  | idle => exact ⟨Nat.succ_pos _, _, _, _, rfl, Or.inr ⟨rfl, rfl⟩⟩
  | intentInsert w inp ext plan key =>
      obtain ⟨rfl, rfl, rfl, hready⟩ := hm
      refine ⟨Nat.succ_pos _, .run, ?_⟩
      cases hfind : findByKey d w.sub k with
      | none => exact ⟨_, _, by simp only [stmt, intentInsert, hfind]; rfl, Or.inl rfl⟩
      | some id =>
          obtain ⟨row, hkey⟩ := findByKey_some hfind
          refine ⟨d, .intentFind w inp k, ?_, Or.inl rfl⟩
          simp only [stmt, intentInsert, hfind]
          exact if_pos (hready id row hkey).unlocked
  | intentFind w inp key => exact ⟨Nat.succ_pos _, .run, _, _, rfl, Or.inl rfl⟩
  | intentCreate id row => exact ⟨Nat.succ_pos _, .run, _, _, rfl, Or.inl rfl⟩
  | intentUpdate id row u =>
      refine ⟨Nat.succ_pos _, .run, setFile id { row with uploadId := some u } d,
        .sign id { row with uploadId := some u }, ?_, Or.inl rfl⟩
      simp only [stmt, updateFile, hm.1]
      rfl
  | sign id row => exact ⟨Nat.succ_pos _, .run, _, _, rfl, Or.inl rfl⟩
  | done r => exact absurd rfl (hpc r)
  | _ => exact hm.elim

/-- A call comes to the INSERT by its first step only. -/
theorem Does.toInsert {w : AccessClaims} {inp : IntentInput} {ext : String}
    {plan : Option PartPlan} {key : Option String} (hd : Does h j d pc a d' pc')
    (hpc : pc' = .intentInsert w inp ext plan key) : a = .intent w inp key := by
  by_cases hidle : pc = .idle
  · subst hidle
    cases hd with
    | @intent viewer input key =>
        rcases intentChecks_cases viewer input key with ⟨err, heq⟩ | ⟨ext', plan', heq, -⟩
        · rw [heq] at hpc
          cases hpc
        · rw [heq] at hpc
          cases hpc
          rfl
    | _ => cases hpc
  · cases hd.next with
    | plain hp _ =>
        rw [hpc] at hp
        exact hp.elim
    | checks => exact absurd rfl hidle
    | load _ hl _ =>
        rw [hpc] at hl
        exact hl.elim
    | pass _ hl _ =>
        rw [hpc] at hl
        exact hl.elim
    | list _ _ => cases hpc
    | head _ _ _ => cases hpc
    | read _ _ _ => cases hpc

/-- A call that inserts under a key is at that statement. -/
theorem Pc.Inserts.eq (hins : pc.Inserts o k) :
    ∃ w inp ext plan, pc = .intentInsert w inp ext plan (some k) ∧ w.sub = o := by
  cases pc with
  | intentInsert w inp ext plan key =>
      obtain ⟨ho, rfl⟩ := hins
      exact ⟨w, inp, ext, plan, rfl, ho⟩
  | _ => exact hins.elim

theorem Pc.left_le (pc : Pc) : pc.left ≤ 5 := by
  cases pc <;> simp [Pc.left]

/-- A step of the retry is allowed while it retries. -/
theorem Retrying.ofOwn {s : St} (ha : a = .run ∨ s.proc i = .idle ∧ a = .intent v input (some k)) :
    Retrying h v k input i s (.call i a) where
  own a' ha' := by
    cases ha'
    exact ha
  others _ _ := Or.inl ⟨a, rfl⟩
  alone j w inp hl _ := by
    cases hl
    rfl

/-- The retry stays midway, and each of its statements takes it one further. -/
theorem midway_run {s t : St} {bs : List Label} (hallowed : Allowed input.contentType input.size)
    (hs : (machine h).Reachable s) (hm : Midway v k input i s.shared (s.proc i))
    (hquiet : ∀ j, j ≠ i → ¬ (s.proc j).Inserts v.sub k)
    (hr : (machine h).Run (Retrying h v k input i) s bs t) :
    Midway v k input i t.shared (t.proc i) ∧ (∀ j, j ≠ i → ¬ (t.proc j).Inserts v.sub k) ∧
    bs.countP (isCall i) + (t.proc i).left ≤ 5 := by
  induction hr with
  | refl => exact ⟨hm, hquiet, by simpa using Pc.left_le (s.proc i)⟩
  | @step bs t u l hr hok hn ih =>
      obtain ⟨hm, hquiet, hcount⟩ := ih
      have hreach := hs.run hr
      have hv := (checked_reachable hreach).1
      -- the environment, another call, or this one
      cases l with
      | env e =>
          obtain ⟨d, he, rfl⟩ := Procs.next_env hn
          have hleaves := (hok.others _ hn).resolve_left (by rintro ⟨a, ha⟩; cases ha)
          refine ⟨hm.leaves hleaves ?_, hquiet, by simpa [isCall] using hcount⟩
          intro id row hkey
          unfold HasKey at hkey
          rw [(env_files he).1] at hkey
          exact ⟨row, hkey⟩
      | call j a =>
          obtain ⟨d, p, hst, rfl⟩ := Procs.next_call hn
          have hd : Does h j t.shared (t.proc j) a d p := stmt_does hst
          by_cases hj : j = i
          · subst hj
            have hgo : Midway v k input j d p ∧ p.left < (t.proc j).left := by
              rcases hok.own a rfl with rfl | ⟨hidle, rfl⟩
              · exact hm.run hd hv (oneFile_reachable hreach v.sub k)
              · rw [hidle] at hd hm ⊢
                cases hd
                obtain ⟨ext, plan, heq⟩ := intentChecks_allowed v (some k) hallowed
                rw [heq]
                exact ⟨⟨rfl, rfl, rfl, hm⟩, by simp [Pc.left]⟩
            refine ⟨by simpa using hgo.1, ?_, ?_⟩
            · intro j' hj'
              simpa [hj'] using hquiet j' hj'
            · have hlt := hgo.2
              simp [isCall]
              omega
          · have hleaves := (hok.others _ hn).resolve_left
              (by rintro ⟨a', ha'⟩; cases ha'; exact hj rfl)
            have hstay : Function.update t.proc j p i = t.proc i :=
              Function.update_of_ne (Ne.symm hj) ..
            refine ⟨?_, ?_, ?_⟩
            · change Midway v k input i d (Function.update t.proc j p i)
              rw [hstay]
              refine hm.leaves hleaves ?_
              intro id row hkey
              rcases hd.hasKey_back hv hkey with ⟨r, hr, -⟩ | ⟨w, inp, ext, plan, hpc, ho, -⟩
              · exact ⟨r, hr⟩
              · refine absurd ?_ (hquiet j hj)
                rw [hpc]
                exact ⟨ho, rfl⟩
            · refine fun j' hj' => Procs.forall_update
                (Q := fun j' (pc : Pc) => j' ≠ i → ¬ pc.Inserts v.sub k) ?_ (fun j' _ => hquiet j') j' hj'
              intro _ hins
              obtain ⟨w, inp, ext, plan, hp, ho⟩ := hins.eq
              exact hj (hok.alone j w inp (by rw [hd.toInsert hp]) ho)
            · change _ + (Function.update t.proc j p i).left ≤ 5
              rw [hstay]
              simpa [isCall, hj] using hcount

theorem Pc.Inserts.ofKey (hins : pc.Inserts o k) : pc.OfKey o k := by
  obtain ⟨w, inp, ext, plan, rfl, ho⟩ := hins.eq
  exact ⟨ho, rfl⟩

/-- If nobody works on the key and every row of it is resumable, the retry is served. -/
theorem served_of_ready {s : St} (hallowed : Allowed input.contentType input.size)
    (hs : (machine h).Reachable s) (hidle : s.proc i = .idle)
    (hquiet : ∀ j, ¬ (s.proc j).OfKey v.sub k) (hready : Ready v k input i s.shared) :
    Served h v k input i s := by
  intro bs t hr
  have hm : Midway v k input i s.shared (s.proc i) := by
    rw [hidle]
    exact hready
  obtain ⟨hm', -, hcount⟩ := midway_run hallowed hs hm (fun j _ hins => hquiet j hins.ofKey) hr
  by_cases hdone : ∃ r, t.proc i = .done r
  · obtain ⟨r, hpc⟩ := hdone
    rw [hpc] at hm'
    obtain ⟨resp, id, row, rfl, hkey, hans⟩ := hm'
    have hone := oneFile_reachable (hs.run hr) v.sub k
    exact Or.inl ⟨resp, id, row, hpc, hkey, fun id' row' hkey' => hone id' id row' row hkey' hkey,
      hans⟩
  · obtain ⟨hpos, a, d, pc, hst, ha⟩ := hm'.enabled fun r hpc => hdone ⟨r, hpc⟩
    exact Or.inr ⟨by omega, a, _, Procs.next_of_stmt hst, Retrying.ofOwn ha⟩

/-! ## The retry alone -/

/-- A retry that is served goes on. -/
theorem Served.go {s : St} {bs : List Label} (hserved : Served h v k input i s)
    (hr : (machine h).Run (Retrying h v k input i) s bs ⟨d, Function.update s.proc i pc⟩)
    (hbegun : pc ≠ .idle) (hnot : ∀ r, pc ≠ .done r) :
    ∃ d' pc', stmt h i d pc .run = some (d', pc') ∧
      (machine h).Run (Retrying h v k input i) s (bs ++ [.call i .run])
        ⟨d', Function.update s.proc i pc'⟩ := by
  have hpc : Function.update s.proc i pc i = pc := Function.update_self ..
  rcases hserved _ _ hr with ⟨resp, id, row, hdone, -⟩ | ⟨-, a, u, hn, hok⟩
  · exact absurd (hpc.symm.trans hdone) (hnot _)
  · obtain ⟨d', pc', hst, rfl⟩ := Procs.next_call hn
    rcases hok.own a rfl with rfl | ⟨hidle, -⟩
    · have hrun := hr.step hok hn
      change (machine h).Run _ s _ ⟨d', Function.update (Function.update s.proc i pc) i pc'⟩ at hrun
      rw [Function.update_idem] at hrun
      change stmt h i d (Function.update s.proc i pc i) .run = _ at hst
      rw [hpc] at hst
      exact ⟨d', pc', hst, hrun⟩
    · exact absurd (hpc.symm.trans hidle) hbegun

/-- A retry that is served has its answer when it is done. -/
theorem Served.answered {s : St} {bs : List Label} {r : Except Thrown Response}
    (hserved : Served h v k input i s)
    (hr : (machine h).Run (Retrying h v k input i) s bs ⟨d, Function.update s.proc i (.done r)⟩) :
    ∃ resp id row, r = .ok resp ∧ Answers resp id row := by
  have hpc : Function.update s.proc i (.done r) i = .done r := Function.update_self ..
  rcases hserved _ _ hr with ⟨resp, id, row, hdone, -, -, hans⟩ | ⟨-, a, u, hn, -⟩
  · have heq : Pc.done r = .done (.ok resp) := hpc.symm.trans hdone
    cases heq
    exact ⟨resp, id, row, rfl, hans⟩
  · obtain ⟨d', pc', hst, -⟩ := Procs.next_call hn
    change stmt h i d (Function.update s.proc i (.done r) i) a = _ at hst
    rw [hpc] at hst
    cases a <;> simp [stmt, Pc.Open] at hst

/-- A call that was served was not refused. -/
theorem Served.not_refused {s : St} {bs : List Label} (hserved : Served h v k input i s)
    (hr : (machine h).Run (Retrying h v k input i) s bs ⟨d, Function.update s.proc i pc⟩) :
    ¬ pc.Refused := by
  rintro ⟨err, rfl⟩
  obtain ⟨resp, id, row, herr, -⟩ := hserved.answered hr
  cases herr

/-- Only a resumable row of the key lets the retry through. -/
theorem ready_of_served {s : St} (hallowed : Allowed input.contentType input.size)
    (hs : (machine h).Reachable s) (hidle : s.proc i = .idle)
    (hserved : Served h v k input i s) : Ready v k input i s.shared := by
  intro id row hkey
  have hfind : findByKey s.shared v.sub k = some id :=
    findByKey_eq (checked_reachable hs).1 hkey fun id' row' hkey' =>
      oneFile_reachable hs v.sub k id' id row' row hkey' hkey
  obtain ⟨ext, plan, hchecks⟩ := intentChecks_allowed v (some k) hallowed
  have hr₁ : (machine h).Run (Retrying h v k input i) s [.call i (.intent v input (some k))]
      ⟨s.shared, Function.update s.proc i (.intentInsert v input ext plan (some k))⟩ := by
    refine Machine.Run.single (Retrying.ofOwn (Or.inr ⟨hidle, rfl⟩)) (Procs.next_of_stmt ?_)
    rw [hidle, ← hchecks]
    rfl
  -- the INSERT meets the row, and has not to wait for it
  obtain ⟨d₂, pc₂, hst₂, hr₂⟩ := hserved.go hr₁ (by intro heq; cases heq) (by intro r heq; cases heq)
  simp only [stmt, intentInsert, hfind] at hst₂
  split at hst₂
  · next hunlocked =>
      cases hst₂
      -- the lookup goes on to sign
      obtain ⟨d₃, pc₃, hst₃, hr₃⟩ := hserved.go hr₂ (by intro heq; cases heq)
        (by intro r heq; cases heq)
      cases hst₃
      rcases intentFind_found hkey hfind with
        ⟨hct, hsize, hp, hrec, hsign⟩ | href | hfin
      · rw [hsign] at hr₃
        -- and signing answers
        obtain ⟨d₄, pc₄, hst₄, hr₄⟩ := hserved.go hr₃ (by intro heq; cases heq)
          (by intro r heq; cases heq)
        have hd₄ : signFor h s.shared id row = (d₄, pc₄) := Option.some.inj hst₄
        have hpc₄ : (signFor h s.shared id row).2 = pc₄ := congrArg Prod.snd hd₄
        refine ⟨hunlocked, hp, hct, hsize, hrec, ?_⟩
        suffices hans : ∃ resp, (signFor h s.shared id row).2 = Pc.returns resp ∧
            Answers resp id row from signFor_answers.mpr hans
        rcases signFor_cases h s.shared id row with href | ⟨url, hurl⟩ | ⟨_, _, _, _, hurls⟩
        · rw [hpc₄] at href
          exact absurd href (hserved.not_refused hr₄)
        · exact ⟨_, hurl, Or.inl ⟨_, rfl⟩⟩
        · exact ⟨_, hurls, Or.inr ⟨_, _, _, _, rfl⟩⟩
      · exact absurd href (hserved.not_refused hr₃)
      · rw [hfin] at hr₃
        obtain ⟨resp, id', row', hresp, hans⟩ := hserved.answered hr₃
        cases hresp
        rcases hans with ⟨_, heq⟩ | ⟨_, _, _, _, heq⟩ <;> cases heq
  · cases hst₂

/-! ## What intents keep of the file -/

/-- A row that only intents have worked on. -/
structure Intact (input : IntentInput) (d : Db) (id : FileId) (row : FileRow) : Prop where
  settled : d.files id = Slot.settled (some row)
  pending : row.status = .pending
  contentType : row.contentType = input.contentType
  size : row.size = input.size
  isOpen : ∀ u, row.uploadId = some u → (d.bucket.openUpload row.key u).isSome

/-- The rows of the key are intact, and so is what the intents of the key are about to
write. -/
structure Sound (o : UserId) (k : String) (input : IntentInput) (s : St) : Prop where
  rows : ∀ id row, HasKey o k s.shared id row → Intact input s.shared id row
  inserts : ∀ j w inp ext plan, s.proc j = .intentInsert w inp ext plan (some k) → w.sub = o →
    inp = input
  updates : ∀ j id row u r, s.proc j = .intentUpdate id row u → HasKey o k s.shared id r →
    (s.shared.bucket.openUpload r.key u).isSome

/-- What is open stays open. -/
def KeepsOpen (d d' : Db) : Prop :=
  ∀ key u, (d.bucket.openUpload key u).isSome → (d'.bucket.openUpload key u).isSome

/-- A new upload leaves an open one open. -/
theorem createMultipart_keeps {b : Bucket} {key key' : ObjectKey} (hb : FiledBucket G b)
    (hup : (b.openUpload key u).isSome) :
    (((b.createMultipart key').1).openUpload key u).isSome := by
  have hne : u ≠ b.nextUpload := by
    rintro rfl
    obtain ⟨up, hup⟩ := Option.isSome_iff_exists.mp hup
    have hu := (openUpload_some hup).1
    rw [hb.closed _ (Nat.le_refl _)] at hu
    cases hu
  have hsame : ((b.createMultipart key').1).openUpload key u = b.openUpload key u := by
    unfold Bucket.createMultipart Bucket.openUpload
    dsimp only
    rw [Function.update_of_ne hne]
  rw [hsame]
  exact hup

/-- The statements of an intent close no upload. -/
theorem Does.keepsOpen (hd : Does h j d pc a d' pc') (hpc : pc.Intends)
    (hb : FiledBucket G d.bucket) : KeepsOpen d d' := by
  intro key u hup
  cases hd.stored with
  | same heq =>
      rw [heq]
      exact hup
  | create heq =>
      rw [heq]
      exact createMultipart_keeps hb hup
  | complete _ _ => exact hpc.elim
  | delete hdel _ => cases pc <;> first | exact hdel.elim | exact hpc.elim
  | abort _ => exact hpc.elim

/-- The statements of an intent leave an intact row intact. -/
theorem Does.intact (hd : Does h j d pc a d' pc') (hpc : pc.Intends)
    (hb : FiledBucket G d.bucket) (hrow : Intact input d id row)
    (hnew : id ≠ d.nextFile) (hup : ∀ row' u, pc = .intentUpdate id row' u →
      (d.bucket.openUpload row.key u).isSome)
    (hr : (d'.files id).base = some r) : Intact input d' id r := by
  have hopen := hd.keepsOpen hpc hb
  -- most statements of an intent leave the table alone
  have keep : d'.files id = d.files id → Intact input d' id r := by
    intro hfiles
    have heq : row = r := by
      rw [hfiles, hrow.settled, Slot.settled_base] at hr
      exact Option.some.inj hr
    subst heq
    exact ⟨hfiles.trans hrow.settled, hrow.pending, hrow.contentType, hrow.size,
      fun u hu => hopen _ _ (hrow.isOpen u hu)⟩
  cases hd with
  | insert _ _ => exact keep (insertRow_ne hnew)
  | @setUpload id' row' r' u _ hb' =>
      by_cases hid : id = id'
      · subst hid
        rw [hrow.settled, Slot.settled_base] at hb'
        cases hb'
        rw [setFile_self, Slot.settled_base] at hr
        cases hr
        refine ⟨setFile_self, hrow.pending, hrow.contentType, hrow.size, ?_⟩
        intro u' hu'
        cases hu'
        exact hup row' u rfl
      · exact keep (setFile_ne hid)
  | sign => exact keep (by rw [signFor_files])
  | abort _ =>
      refine keep ?_
      change (d.files id).rollback j = d.files id
      rw [hrow.settled]
      rfl
  | intent | resume | begin | sweep | conflict _ | find | create | setNothing _ => exact keep rfl
  | _ => exact hpc.elim

/-- A step that leaves the key's rows alone leaves the row intact. -/
theorem Leaves.intact (hl : Leaves o k d d') (hkey : HasKey o k d id row)
    (hrow : Intact input d id row) (hr : (d'.files id).base = some r) : Intact input d' id r := by
  obtain ⟨hfiles, hopen⟩ := hl id row hkey
  have heq : row = r := by
    rw [hfiles, hrow.settled, Slot.settled_base] at hr
    exact Option.some.inj hr
  subst heq
  exact ⟨hfiles.trans hrow.settled, hrow.pending, hrow.contentType, hrow.size,
    fun u hu => hopen u (hrow.isOpen u hu)⟩

/-- A refused call writes no upload into a row. -/
theorem Pc.Refused.not_update (href : pc.Refused) : pc ≠ .intentUpdate id row u := by
  obtain ⟨err, rfl⟩ := href
  intro heq
  cases heq

theorem Found.not_update (hf : Found d pc) : pc ≠ .intentUpdate id row u := by
  obtain ⟨id', row', -, ⟨-, rfl⟩ | rfl⟩ := hf <;> (intro heq; cases heq)

theorem Pc.Past.not_update (hpast : pc.Past) : pc ≠ .intentUpdate id row u := by
  rintro rfl
  exact hpast

/-- A call comes to the UPDATE of `upload_id` from the upload it has created. -/
theorem Does.toUpdate (hd : Does h j d pc a d' pc') (hpc : pc' = .intentUpdate id row u) :
    pc = .intentCreate id row ∧ d'.bucket = (d.bucket.createMultipart row.key).1 ∧
    d'.files = d.files ∧ u = d.bucket.nextUpload := by
  by_cases hpast : pc.Past
  · exact absurd hpc (hd.past hpast).not_update
  cases hd with
  | create =>
      cases hpc
      exact ⟨rfl, rfl, rfl, rfl⟩
  | @intent w inp key =>
      rcases intentChecks_cases w inp key with href | ⟨ext, plan, heq, -⟩
      · exact absurd hpc href.not_update
      · rw [heq] at hpc
        cases hpc
  | insert _ _ => split at hpc <;> cases hpc
  | find =>
      exact absurd hpc ((intentFind_cases _ _ _ _).elim Pc.Refused.not_update Found.not_update)
  | @sign id row =>
      rcases signFor_cases h d id row with href | ⟨url, heq⟩ | ⟨_, _, _, _, heq⟩
      · exact absurd hpc href.not_update
      all_goals
        rw [heq] at hpc
        cases hpc
  | resumeFind =>
      exact absurd hpc ((resumeFind_cases _ _ _).elim Pc.Refused.not_update Found.not_update)
  | resume | begin | sweep | conflict _ | setUpload _ _ | setNothing _ | abort _ => cases hpc
  | _ => exact absurd trivial hpast

/-- The row a file began with and its committed row have one key. -/
theorem FiledDb.sameKey {b : Birth} (hf : FiledDb G d) (hb : G id = some b) (hof : OfBirth b row)
    (hr : (d.files id).base = some r) : r.key = row.key := by
  obtain ⟨b', hb', hof'⟩ := hf.rows.rows id r hr
  rw [hb] at hb'
  cases hb'
  rw [hof'.key, hof.key]

/-- At the start there is no row and no intent. -/
theorem Sound.init {s : St} (hinit : (machine h).Init s) : Sound o k input s := by
  have hno : ∀ {P : Prop} {j : ℕ} {pc : Pc}, pc ≠ .idle → s.proc j = pc → P := by
    intro P j pc hne hpc
    exact absurd (hpc.symm.trans (hinit.2 j)) hne
  refine ⟨?_, ?_, ?_⟩
  · intro id row hkey
    have hb := hkey.1
    rw [hinit.1.1 id, Slot.settled_base] at hb
    cases hb
  · intro j w inp ext plan hpc
    exact hno (by intro heq; cases heq) hpc
  · intro j id row u r hpc
    exact hno (by intro heq; cases heq) hpc

/-- One step of a run in which only intents work on the file of the key. -/
theorem Sound.step {s t : St} {l : Label} (hs : (machine h).Reachable s)
    (hok : OnlyIntents h o k input s l) (hn : (machine h).next s l = some t)
    (hsound : Sound o k input s) : Sound o k input t := by
  obtain ⟨G, hdb, hcalls⟩ := filed_reachable hs
  cases l with
  | env e =>
      have hl := (hok.others t hn).resolve_left (by rintro ⟨j, a, ha, -⟩; cases ha)
      obtain ⟨d, he, rfl⟩ := Procs.next_env hn
      have hback : ∀ {id row}, HasKey o k d id row → HasKey o k s.shared id row := by
        intro id row hkey
        unfold HasKey at hkey ⊢
        rwa [← (env_files he).1]
      refine ⟨?_, hsound.inserts, ?_⟩
      · intro id row hkey
        exact hl.intact (hback hkey) (hsound.rows id row (hback hkey)) hkey.1
      · intro j id row u r hpc hkey
        exact (hl id r (hback hkey)).2 u (hsound.updates j id row u r hpc (hback hkey))
  | call j a =>
      have hcond := hok.others t hn
      obtain ⟨d, p, hst, rfl⟩ := Procs.next_call hn
      have hd : Does h j s.shared (s.proc j) a d p := stmt_does hst
      have hv := hdb.rows.versions
      -- an intent may write the row; anything else leaves it
      have hor : (s.proc j).Intends ∨ Leaves o k s.shared d := by
        rcases hcond with ⟨j', a', heq, hpc⟩ | hl
        · cases heq
          exact Or.inl hpc
        · exact Or.inr hl
      have hopen : ∀ id r u, HasKey o k s.shared id r →
          (s.shared.bucket.openUpload r.key u).isSome → (d.bucket.openUpload r.key u).isSome := by
        intro id r u hkey hup
        rcases hor with hpc | hl
        · exact hd.keepsOpen hpc hdb.bucket _ _ hup
        · exact (hl id r hkey).2 u hup
      refine ⟨?_, ?_, ?_⟩
      · intro id row hkey
        rcases hd.hasKey_back hv hkey with
          ⟨r, hr, -⟩ | ⟨w, inp, ext, plan, hpc, ho, hid, hrow, hd', -⟩
        · have hin := hsound.rows id r hr
          rcases hor with hpc | hl
          · refine hd.intact hpc hdb.bucket hin (Nat.ne_of_lt (hv.lt hr.1)) ?_ hkey.1
            intro row' u hupd
            exact hsound.updates j id row' u r hupd hr
          · exact hl.intact hr hin hkey.1
        · have hinp := hsound.inserts j w inp ext plan hpc ho
          subst hinp hrow hid
          rw [hd']
          refine ⟨insertRow_self, rfl, rfl, rfl, ?_⟩
          intro u hu
          cases hu
      · intro j' w inp ext plan
        refine Procs.forall_update (Q := fun _ (pc : Pc) =>
          pc = .intentInsert w inp ext plan (some k) → w.sub = o → inp = input) ?_ ?_ j'
        · intro hp
          exact hok.body j w inp (by rw [hd.toInsert hp])
        · intro j' _
          exact hsound.inserts j' w inp ext plan
      · intro j' id row u r hpc hkey
        by_cases hj : j' = j
        · subst hj
          have hp : p = .intentUpdate id row u := by
            change Function.update s.proc j' p j' = _ at hpc
            rwa [Function.update_self] at hpc
          obtain ⟨hcreate, hbucket, hfiles, rfl⟩ := hd.toUpdate hp
          have hfiled := hcalls j'
          rw [hcreate] at hfiled
          obtain ⟨b, hb, hof, -⟩ := hfiled
          have hr := hkey.1
          change ((d.files id).base = some r) at hr
          rw [hfiles] at hr
          change (d.bucket.openUpload r.key _).isSome
          rw [hbucket, hdb.sameKey hb hof hr]
          exact createMultipart_open _ _
        · change Function.update s.proc j p j' = _ at hpc
          rw [Function.update_of_ne hj] at hpc
          have hfiled := hcalls j'
          rw [hpc] at hfiled
          obtain ⟨b, hb, hof, -⟩ := hfiled
          -- the file of the call was there before
          rcases hd.hasKey_back hv hkey with ⟨r', hr', hkeys⟩ | ⟨_, _, _, _, -, -, hid, -⟩
          · have hup := hsound.updates j' id row u r' hpc hr'
            change (d.bucket.openUpload r.key u).isSome
            rw [← hkeys]
            exact hopen id r' u hr' hup
          · exact absurd hid (Nat.ne_of_lt (hdb.rows.drawn id b hb))

theorem sound_run {s₀ s : St} {as : List Label} (hinit : (machine h).Init s₀)
    (hr : (machine h).Run (OnlyIntents h o k input) s₀ as s) : Sound o k input s :=
  hr.invariant_of hinit (fun _ _ _ hs hok hn => Sound.step hs hok hn) (Sound.init hinit)

/-- After intents alone, a file that is not half made can be gone on with. -/
theorem Sound.ready_iff {s : St} (hsound : Sound v.sub k input s) :
    Ready v k input i s.shared ↔ ¬ HalfMade v.sub k s.shared := by
  constructor
  · rintro hready ⟨id, row, hkey, hcount, hnone⟩
    have hrec := (hready id row hkey).recorded hcount
    rw [hnone] at hrec
    cases hrec
  · intro hmade id row hkey
    obtain ⟨hsettled, hp, hct, hsize, hup⟩ := hsound.rows id row hkey
    refine ⟨Or.inl ?_, hp, hct, hsize, ?_, hup⟩
    · rw [hsettled]
      intro j w hl
      cases hl
    · intro hcount
      cases hu : row.uploadId with
      | none => exact absurd ⟨id, row, hkey, hcount, hu⟩ hmade
      | some u => rfl

/-- When nobody works on the key, its next intent is served exactly if every row of the key
is resumable; after intents alone, exactly if the file is not half made. -/
theorem retry_iff (h : Hashes) (v : AccessClaims) (k : String) (input : IntentInput) (i : ℕ)
    (s : St) (hallowed : Allowed input.contentType input.size) (hs : (machine h).Reachable s)
    (hidle : s.proc i = .idle) (hquiet : ∀ j, ¬ (s.proc j).OfKey v.sub k) :
    (Served h v k input i s ↔ Ready v k input i s.shared) ∧
    ∀ s₀ as, (machine h).Init s₀ → (machine h).Run (OnlyIntents h v.sub k input) s₀ as s →
      (Served h v k input i s ↔ ¬ HalfMade v.sub k s.shared) := by
  have hiff : Served h v k input i s ↔ Ready v k input i s.shared :=
    ⟨ready_of_served hallowed hs hidle, served_of_ready hallowed hs hidle hquiet⟩
  refine ⟨hiff, ?_⟩
  intro s₀ as hinit hr
  exact hiff.trans (sound_run hinit hr).ready_iff

/-! ## Two intents that fail -/

instance : DecidablePred Pc.Intends
  | .idle | .intentInsert .. | .intentFind .. | .intentCreate .. | .intentUpdate .. | .sign .. =>
      isTrue trivial
  | .resumeFind .. | .commitFind .. | .commitParts .. | .commitGone .. | .commitComplete ..
  | .commitHead .. | .commitDelete .. | .commitRead .. | .commitUpdate .. | .sweepSelect ..
  | .sweepAbort .. | .sweepObject .. | .sweepDelete .. | .sweepCommit .. | .done _ | .aborted =>
      isFalse not_false

/-- A step of an intent of the buyer with the key and this body. -/
def tapped (k : String) (input : IntentInput) (s : St) : Label → Bool
  | .call j a => decide ((s.proc j).Intends) &&
      decide (a ∈ [.intent buyer input (some k), .run, .abort])
  | .env _ => false

/-- What the concrete run checks is the condition of the theorem. -/
theorem tapped_onlyIntents {s : St} {l : Label} (hl : tapped k input s l = true) :
    OnlyIntents h buyer.sub k input s l := by
  cases l with
  | env e => cases hl
  | call j a =>
      simp only [tapped, Bool.and_eq_true, decide_eq_true_eq] at hl
      obtain ⟨hpc, ha⟩ := hl
      refine ⟨?_, fun t _ => Or.inl ⟨j, a, rfl, hpc⟩⟩
      intro j' w inp heq _
      cases heq
      simp at ha
      exact ha.2

def smallImage : IntentInput := ⟨"image/png", 1⟩

def bigArchive : IntentInput := ⟨"application/gzip", multipartThresholdBytes + 1⟩

theorem smallImage_allowed : Allowed smallImage.contentType smallImage.size :=
  ⟨⟨"png", 20 * miB⟩, by decide, by decide⟩

theorem bigArchive_allowed : Allowed bigArchive.contentType bigArchive.size :=
  ⟨⟨"gz", 1024 * giB⟩, by decide, by decide⟩

/-- An intent of the buyer that fails after its INSERT. -/
def failing (input : IntentInput) : List Label :=
  [.call 1 (.intent buyer input (some "tap")), .call 1 .run, .call 1 .abort]

/-- After it nobody is working on the key. -/
theorem failing_run {s : St}
    (hexec : (machine plainHashes).exec (tapped "tap" input) start (failing input) = some s)
    (hfailed : s.proc 1 = .aborted) :
    (machine plainHashes).Run (OnlyIntents plainHashes buyer.sub "tap" input) start (failing input)
      s ∧ (machine plainHashes).Reachable s ∧ s.proc 2 = .idle ∧
    ∀ j, ¬ (s.proc j).OfKey buyer.sub "tap" := by
  have hr : (machine plainHashes).Run (OnlyIntents plainHashes buyer.sub "tap" input) start
      (failing input) s := Machine.exec_run (fun _ _ => tapped_onlyIntents) hexec
  have hproc : ∀ j, j ≠ 1 → s.proc j = .idle := by
    intro j hj
    refine Procs.Run.proc_eq hr ?_
    intro a ha
    simp [failing, hj] at ha
  refine ⟨hr, ⟨start, _, start_init plainHashes, hr.always⟩, hproc 2 (by decide), ?_⟩
  intro j hkey
  by_cases hj : j = 1
  · subst hj
    rw [hfailed] at hkey
    exact hkey
  · rw [hproc j hj] at hkey
    exact hkey

/-- An image is not in parts: the intent that fails when it signs can be retried. -/
theorem retry_iff_image : ∃ s,
    (machine plainHashes).exec (tapped "tap" smallImage) start (failing smallImage) = some s ∧
    s.proc 1 = .aborted ∧ Served plainHashes buyer "tap" smallImage 2 s := by
  have hrun : ∃ s row, (machine plainHashes).exec (tapped "tap" smallImage) start
      (failing smallImage) = some s ∧ s.proc 1 = .aborted ∧ s.shared.nextFile = 2 ∧
      s.shared.files 0 = Slot.settled none ∧ s.shared.files 1 = Slot.settled (some row) ∧
      row.partCount = none :=
    ⟨_, _, rfl, rfl, rfl, rfl, rfl, rfl⟩
  obtain ⟨s, row, hexec, hfailed, hnext, hzero, hone, hcount⟩ := hrun
  obtain ⟨hr, hreach, hidle, hquiet⟩ := failing_run hexec hfailed
  refine ⟨s, hexec, hfailed, ?_⟩
  refine ((retry_iff plainHashes buyer "tap" smallImage 2 s smallImage_allowed hreach hidle
    hquiet).2 start _ (start_init plainHashes) hr).mpr ?_
  rintro ⟨id, r, ⟨hb, -⟩, hparts, -⟩
  have hlt := (checked_reachable hreach).1.lt hb
  rw [hnext] at hlt
  rcases Nat.lt_succ_iff_lt_or_eq.mp hlt with hid | rfl
  · rw [Nat.lt_one_iff.mp hid, hzero] at hb
    cases hb
  · rw [hone] at hb
    cases hb
    rw [hcount] at hparts
    cases hparts

/-- An archive is in parts: the intent whose upload is not created can never be retried. -/
theorem half_made_blocks : ¬ RetryServed plainHashes := by
  intro hall
  have hrun : ∃ s row, (machine plainHashes).exec (tapped "tap" bigArchive) start
      (failing bigArchive) = some s ∧ s.proc 1 = .aborted ∧
      s.shared.files 1 = Slot.settled (some row) ∧ hasKey buyer.sub "tap" row = true ∧
      row.partCount.isSome = true ∧ row.uploadId = none :=
    ⟨_, _, rfl, rfl, rfl, rfl, rfl, rfl⟩
  obtain ⟨s, row, hexec, hfailed, hone, hkey, hcount, hnone⟩ := hrun
  obtain ⟨hr, hreach, hidle, hquiet⟩ := failing_run hexec hfailed
  have hserved := hall buyer "tap" bigArchive 2 start _ s bigArchive_allowed
    (start_init plainHashes) hr hidle hquiet
  have hready := ready_of_served bigArchive_allowed hreach hidle hserved
  have hrec := (hready 1 row ⟨by rw [hone, Slot.settled_base], hkey⟩).recorded hcount
  rw [hnone] at hrec
  cases hrec

end Marketplace.Files
