import Marketplace.Files.Reports
import Marketplace.Files.Resume

/-!
# Files.Answers — the statuses of commit

`commit` of a PENDING row answers COMPLETED or throws a 409, a 410 or a 422, whatever it finds
in storage, as long as three statements find what they look for (`Stands`):

* HeadObject after a ListParts that has found no upload finds the object. `listPartsOrGone`
  turns this very answer into a 410; `completeFromStorage` throws it on as it is;
* CompleteMultipartUpload finds the parts that were listed, unless the upload is gone;
* the range read finds the object, and the content type is not the name of a member of
  `Object.prototype` that cannot be called with the bytes.

Everything else ends in a documented status, with every file as it was: `commit_documented`
says so of every interleaving with other calls, uploads and the lifecycle rule, and
`commit_alone` of a commit that nobody disturbs.
-/

namespace Marketplace.Files

open Core Auth

/-! ## What a commit may answer -/

/-- A 409, a 410 or a 422. -/
def Documented : Thrown → Prop
  | .http status _ => status = 409 ∨ status = 410 ∨ status = 422
  | .error _ => False

/-- The call is past the lookup of the commit of `id`. What it has decided to throw is
documented. -/
def Pc.Committing (id : FileId) : Pc → Prop
  | .commitParts k _ _ | .commitGone k _ | .commitComplete k _ _ _ | .commitHead k _
  | .commitRead k _ _ | .commitUpdate k _ _ _ => k = id
  | .commitDelete k _ err => k = id ∧ Documented err
  | _ => False

/-- The call has thrown what is documented. -/
def Pc.Refuses (pc : Pc) : Prop := ∃ err, pc = .done (.error err) ∧ Documented err

/-- The commit is still under way, has answered COMPLETED, or has thrown what is documented. -/
def Pc.Fine (id : FileId) (pc : Pc) : Prop := pc.Committing id ∨ pc.Committed ∨ pc.Refuses

/-- Call `i` begins to commit its caller's PENDING row `id`: this is the step of its lookup. -/
structure Begins (h : Hashes) (i : ℕ) (id : FileId) (s₀ s₁ : St) : Prop where
  next : (machine h).next s₀ (.call i .run) = some s₁
  lookup : ∃ viewer row, s₀.proc i = .commitFind viewer id ∧
    (s₀.shared.files id).base = some row ∧ row.status = .pending ∧ row.ownerId = viewer.sub

/-- Call `i` does not crash, and storage and database answer it. -/
def Answered (i : ℕ) (_s : St) (l : Label) : Prop := l ≠ .call i .abort

/-- A step of call `i` that does not answer COMPLETED leaves every file as it is. -/
def KeepsFiles (h : Hashes) (i : ℕ) (s : St) (l : Label) : Prop :=
  ∀ a t, l = .call i a → (machine h).next s l = some t →
    t.shared.files = s.shared.files ∨ (t.proc i).Committed

/-- The members of `Object.prototype` that throw when they are called with the bytes. -/
def uncallable : List String := ["__defineGetter__", "__defineSetter__", "__proto__"]

/-- What the next storage call of a commit has to find. -/
def Stands (h : Hashes) (d : Db) : Pc → Prop
  | .commitGone _ row => (d.bucket.head row.key).isSome
  | .commitComplete _ row u parts => ∀ up, d.bucket.openUpload row.key u = some up →
      ∀ p ∈ parts, ∃ body, up.parts p.partNumber = some body ∧ h.single body = p.etag
  | .commitRead _ row _ => (d.bucket.head row.key).isSome ∧ row.contentType ∉ uncallable
  | _ => True

/-- If this is a step of call `i`, its storage call finds what it needs. -/
def StorageStands (h : Hashes) (i : ℕ) (s : St) (l : Label) : Prop :=
  ∀ a, l = .call i a → Stands h s.shared (s.proc i)

/-- The statements that are left, at most. -/
def Pc.commitLeft : Pc → ℕ
  | .commitParts _ _ _ => 5
  | .commitGone _ _ | .commitComplete _ _ _ _ => 4
  | .commitHead _ _ => 3
  | .commitRead _ _ _ => 2
  | .commitDelete _ _ _ | .commitUpdate _ _ _ _ => 1
  | _ => 0

/-! ## One statement of a commit -/

section

variable {h : Hashes} {i : ℕ} {id : FileId} {d d' : Db} {pc pc' : Pc} {a : Stmt} {row : FileRow}

theorem Pc.Committing.fine (hpc : pc.Committing id) : pc.Fine id := Or.inl hpc

theorem Pc.Fine.throws {status : ℕ} {message : String}
    (hs : status = 409 ∨ status = 410 ∨ status = 422) : (Pc.throws status message).Fine id :=
  Or.inr (Or.inr ⟨_, rfl, hs⟩)

/-- An answer that fails is not a fine one. -/
theorem Pc.not_fine_fail {message : String} : ¬ (Pc.fail message).Fine id := by
  rintro (hc | hc | ⟨err, heq, hdoc⟩)
  · exact hc
  · exact hc
  · cases heq
    exact hdoc

/-- `magicMatches` throws for three types, whatever the bytes. -/
theorem magicMatches_error_iff {ct : String} {head : Bytes} :
    magicMatches ct head = .error () ↔ ct ∈ uncallable := by
  unfold magicMatches
  constructor
  · intro hm
    split at hm
    · cases hm
    · next m hl =>
        have hin := inherited_eq.mp hl
        simp only [JsObject.protoMembers, List.mem_cons, Prod.mk.injEq, List.not_mem_nil,
          or_false] at hin
        -- of the twelve members, the three that throw
        rcases hin with ⟨rfl, rfl⟩ | ⟨rfl, rfl⟩ | ⟨rfl, rfl⟩ | ⟨rfl, rfl⟩ | ⟨rfl, rfl⟩ |
          ⟨rfl, rfl⟩ | ⟨rfl, rfl⟩ | ⟨rfl, rfl⟩ | ⟨rfl, rfl⟩ | ⟨rfl, rfl⟩ | ⟨rfl, rfl⟩ | ⟨rfl, rfl⟩
          <;> first | (cases hm; done) | decide
    · cases hm
  · intro hin
    simp only [uncallable, List.mem_cons, List.not_mem_nil, or_false] at hin
    have hthrows : ∃ m, (ct, m) ∈ JsObject.protoMembers ∧
        m.call (magic.map Prod.fst) (decodesTo head) = .error () := by
      rcases hin with rfl | rfl | rfl
      · exact ⟨.defineGetter, by decide, rfl⟩
      · exact ⟨.defineSetter, by decide, rfl⟩
      · exact ⟨.proto, by decide, rfl⟩
    obtain ⟨m, hm, herr⟩ := hthrows
    rw [inherited_eq.mpr hm]
    exact herr

/-- Complete finds the listed parts if and only if each of them is still the one listed. -/
theorem listedBodies_isSome_iff {up : Upload} {parts : List UploadedPart} :
    (Bucket.listedBodies h up parts).isSome ↔
      ∀ p ∈ parts, ∃ body, up.parts p.partNumber = some body ∧ h.single body = p.etag := by
  induction parts with
  | nil => simp [Bucket.listedBodies]
  | cons p parts ih =>
      rw [List.forall_mem_cons, ← ih, Bucket.listedBodies]
      cases hp : up.parts p.partNumber with
      | none => simp
      | some body =>
          by_cases hb : h.single body = p.etag
          · simp [Option.filter, hb]
          · simp [Option.filter, hb]

/-- Completing goes on exactly if storage can take the step. -/
theorem commitComplete_fine_iff {u : UploadId} {parts : List UploadedPart} :
    (commitComplete h d id row u parts).2.Fine id ↔
      Stands h d (.commitComplete id row u parts) := by
  cases hup : d.bucket.openUpload row.key u with
  | none =>
      simp only [commitComplete, Bucket.completeMultipart, Stands, hup]
      exact ⟨fun _ up hnone => absurd hnone (by simp), fun _ => Or.inl rfl⟩
  | some up =>
      have hiff : (Bucket.listedBodies h up parts).isSome ↔ _ := listedBodies_isSome_iff
      cases hl : Bucket.listedBodies h up parts with
      | none =>
          simp only [commitComplete, Bucket.completeMultipart, Stands, hup, hl]
          constructor
          · intro hf
            exact absurd hf Pc.not_fine_fail
          · intro hall
            have hsome := hiff.mpr (hall up rfl)
            rw [hl] at hsome
            cases hsome
      | some bodies =>
          simp only [commitComplete, Bucket.completeMultipart, Stands, hup, hl]
          constructor
          · intro _ up' hup'
            obtain rfl := Option.some.inj hup'
            exact hiff.mp (by rw [hl]; rfl)
          · intro _
            exact Or.inl rfl

theorem commitComplete_files (u : UploadId) (parts : List UploadedPart) :
    (commitComplete h d id row u parts).1.files = d.files := by
  unfold commitComplete
  split <;> rfl

/-- The call has ended. -/
def Pc.Ended (pc : Pc) : Prop := ∃ result, pc = .done result

/-- Where a statement of a commit leads. -/
structure Onward (h : Hashes) (id : FileId) (d : Db) (pc pc' : Pc) : Prop where
  fine_iff : pc'.Fine id ↔ Stands h d pc
  left : pc'.commitLeft < pc.commitLeft
  stays : pc'.Committing id ∨ pc'.Ended

theorem Onward.of_committing (hstands : Stands h d pc) (hpc : pc'.Committing id)
    (hleft : pc'.commitLeft < pc.commitLeft) : Onward h id d pc pc' where
  fine_iff := ⟨fun _ => hstands, fun _ => hpc.fine⟩
  left := hleft
  stays := Or.inl hpc

theorem Onward.of_refuses {err : Thrown} (hstands : Stands h d pc) (hdoc : Documented err)
    (hleft : 0 < pc.commitLeft) : Onward h id d pc (.done (.error err)) where
  fine_iff := ⟨fun _ => hstands, fun _ => Or.inr (Or.inr ⟨err, rfl, hdoc⟩)⟩
  left := hleft
  stays := Or.inr ⟨_, rfl⟩

theorem Onward.of_throws {status : ℕ} {message : String} (hstands : Stands h d pc)
    (hs : status = 409 ∨ status = 410 ∨ status = 422) (hleft : 0 < pc.commitLeft) :
    Onward h id d pc (Pc.throws status message) :=
  .of_refuses hstands hs hleft

theorem Onward.of_committed {key : ObjectKey} {size : ℕ} {etag : ETag}
    (hstands : Stands h d pc) (hleft : 0 < pc.commitLeft) :
    Onward h id d pc (Pc.returns (.committed id key size etag)) where
  fine_iff := ⟨fun _ => hstands, fun _ => Or.inr (Or.inl trivial)⟩
  left := hleft
  stays := Or.inr ⟨_, rfl⟩

theorem Onward.of_fail {message : String} (hstands : ¬ Stands h d pc) (hleft : 0 < pc.commitLeft) :
    Onward h id d pc (Pc.fail message) where
  fine_iff := ⟨fun hf => absurd hf Pc.not_fine_fail, fun hs => absurd hs hstands⟩
  left := hleft
  stays := Or.inr ⟨_, rfl⟩

/-- After listing the parts a commit goes on as `Onward` says. -/
theorem commitParts_onward (u : UploadId) :
    Onward h id d (.commitParts id row u) (commitParts h d id row u) := by
  unfold commitParts
  split
  · exact .of_committing trivial rfl (by simp [Pc.commitLeft])
  · split
    · exact .of_throws trivial (Or.inl rfl) (by simp [Pc.commitLeft])
    · dsimp only
      split
      · exact .of_throws trivial (Or.inl rfl) (by simp [Pc.commitLeft])
      · exact .of_committing trivial rfl (by simp [Pc.commitLeft])

/-- With no upload listed a commit goes on if the object is there, and fails with NoSuchUpload
otherwise. -/
theorem commitGone_onward : Onward h id d (.commitGone id row)
    (if (d.bucket.head row.key).isSome then .commitHead id row else Pc.fail "NoSuchUpload") := by
  split
  · next hhead => exact .of_committing hhead rfl (by simp [Pc.commitLeft])
  · next hhead => exact .of_fail hhead (by simp [Pc.commitLeft])

/-- After completing a commit goes on as `Onward` says. -/
theorem commitComplete_onward (u : UploadId) (parts : List UploadedPart) :
    Onward h id d (.commitComplete id row u parts) (commitComplete h d id row u parts).2 := by
  refine ⟨commitComplete_fine_iff, ?_, ?_⟩
  · rcases commitComplete_cases h d id row u parts with ⟨err, heq⟩ | heq
    · rw [heq]
      simp [Pc.commitLeft]
    · rw [heq]
      simp [Pc.commitLeft]
  · rcases commitComplete_cases h d id row u parts with href | heq
    · exact Or.inr (by obtain ⟨err, heq⟩ := href; exact ⟨_, heq⟩)
    · rw [heq]
      exact Or.inl rfl

/-- After the HEAD a commit goes on as `Onward` says. -/
theorem commitHead_onward : Onward h id d (.commitHead id row) (commitHead d id row) := by
  unfold commitHead
  split
  · exact .of_throws trivial (Or.inl rfl) (by simp [Pc.commitLeft])
  · split
    · exact .of_committing trivial ⟨rfl, Or.inl rfl⟩ (by simp [Pc.commitLeft])
    · exact .of_committing trivial rfl (by simp [Pc.commitLeft])

theorem readRange_isSome {b : Bucket} {key : ObjectKey} {n : ℕ} :
    (b.readRange key n).isSome = (b.head key).isSome := by
  simp [Bucket.readRange, Bucket.head]

/-- After reading the first bytes a commit goes on as `Onward` says. -/
theorem commitRead_onward (head : ObjectHead) :
    Onward h id d (.commitRead id row head) (commitRead d id row head) := by
  have hsome : (d.bucket.readRange row.key magicBytes).isSome = _ := readRange_isSome
  unfold commitRead
  split
  · next hnone =>
      refine .of_fail ?_ (by simp [Pc.commitLeft])
      rintro ⟨hhead, -⟩
      rw [← hsome, hnone] at hhead
      cases hhead
  · next magic hread =>
      have hhead : (d.bucket.head row.key).isSome := by
        rw [← hsome, hread]
        rfl
      split
      · next err herr =>
          refine .of_fail ?_ (by simp [Pc.commitLeft])
          rintro ⟨-, hcall⟩
          exact hcall (magicMatches_error_iff.mp herr)
      · next hm =>
          have hcall : row.contentType ∉ uncallable := by
            intro hin
            rw [magicMatches_error_iff.mpr hin] at hm
            cases hm
          exact .of_committing ⟨hhead, hcall⟩ ⟨rfl, Or.inr (Or.inr rfl)⟩ (by simp [Pc.commitLeft])
      · next hm =>
          have hcall : row.contentType ∉ uncallable := by
            intro hin
            rw [magicMatches_error_iff.mpr hin] at hm
            cases hm
          exact .of_committing ⟨hhead, hcall⟩ rfl (by simp [Pc.commitLeft])

/-- A statement of a commit goes on as it should exactly if storage has what it needs; only
the one that answers COMPLETED touches a file. -/
theorem stmt_committing (hst : stmt h i d pc a = some (d', pc')) (hpc : pc.Committing id)
    (ha : a ≠ .abort) : Onward h id d pc pc' ∧ (d'.files = d.files ∨ pc'.Committed) := by
  -- the statements of a commit; a call in one is at no other
  cases stmt_does hst with
  | parts =>
      obtain rfl := hpc
      exact ⟨commitParts_onward _, Or.inl rfl⟩
  | gone =>
      obtain rfl := hpc
      exact ⟨commitGone_onward, Or.inl rfl⟩
  | complete =>
      obtain rfl := hpc
      exact ⟨commitComplete_onward _ _, Or.inl (commitComplete_files _ _)⟩
  | head =>
      obtain rfl := hpc
      exact ⟨commitHead_onward, Or.inl rfl⟩
  | read =>
      obtain rfl := hpc
      exact ⟨commitRead_onward _, Or.inl rfl⟩
  | delete =>
      obtain ⟨rfl, hdoc⟩ := hpc
      exact ⟨.of_refuses trivial hdoc (by simp [Pc.commitLeft]), Or.inl rfl⟩
  | deleteError =>
      obtain ⟨rfl, hdoc⟩ := hpc
      exact ⟨.of_refuses trivial hdoc (by simp [Pc.commitLeft]), Or.inl rfl⟩
  | update =>
      obtain rfl := hpc
      exact ⟨.of_committed trivial (by simp [Pc.commitLeft]), Or.inr trivial⟩
  | updateNothing =>
      obtain rfl := hpc
      exact ⟨.of_committed trivial (by simp [Pc.commitLeft]), Or.inl rfl⟩
  | abort => exact absurd rfl ha
  | _ => exact hpc.elim

/-- Only the row lock can keep a commit waiting, at its UPDATE. -/
theorem stmt_ready (hpc : pc.Committing id) :
    (stmt h i d pc .run).isSome ∨ ∃ j, j ≠ i ∧ (d.files id).Held j := by
  cases pc with
  | commitUpdate k row head magic =>
      obtain rfl : k = id := hpc
      by_cases hfree : (d.files k).Free i
      · left
        simp only [stmt, commitUpdate, Option.isSome_map, updateFile, if_pos hfree]
        split <;> rfl
      · right
        unfold Slot.Free at hfree
        push Not at hfree
        obtain ⟨j, v, hl, hj⟩ := hfree
        exact ⟨j, hj, v, hl⟩
  | commitParts _ _ _ | commitGone _ _ | commitComplete _ _ _ _ | commitHead _ _
  | commitRead _ _ _ | commitDelete _ _ _ => exact Or.inl rfl
  | _ => exact hpc.elim

theorem stmt_ended (hpc : pc.Ended) : stmt h i d pc a = none := by
  obtain ⟨result, rfl⟩ := hpc
  cases a <;> rfl

end

/-! ## A whole commit -/

variable {h : Hashes} {i : ℕ} {id : FileId} {s₀ s₁ s t : St} {as : List Label} {l : Label}

/-- What holds after the steps `as`, taken since the lookup. -/
structure Course (h : Hashes) (i : ℕ) (id : FileId) (s₁ : St) (as : List Label) (s : St) :
    Prop where
  stays : (s.proc i).Committing id ∨ (s.proc i).Ended
  keeps : (machine h).Run (KeepsFiles h i) s₁ as s
  left : as.countP (isCall i) + (s.proc i).commitLeft ≤ (s₁.proc i).commitLeft
  fine_iff : (s.proc i).Fine id ↔ (machine h).Run (StorageStands h i) s₁ as s

/-- At the start of its course a commit has done nothing. -/
theorem Course.refl (h₁ : (s₁.proc i).Committing id) : Course h i id s₁ [] s₁ where
  stays := Or.inl h₁
  keeps := .refl
  left := by simp
  fine_iff := ⟨fun _ => .refl, fun _ => h₁.fine⟩

/-- A step of somebody else. -/
theorem Course.other (hc : Course h i id s₁ as s) (hr : (machine h).Run (Answered i) s₁ as s)
    (hn : (machine h).next s l = some t) (hl : isCall i l = false) (hpc : t.proc i = s.proc i) :
    Course h i id s₁ (as ++ [l]) t where
  stays := by
    rw [hpc]
    exact hc.stays
  keeps := by
    rw [Machine.Run.concat_iff hr hn]
    refine ⟨hc.keeps, ?_⟩
    rintro a t' rfl
    simp [isCall] at hl
  left := by
    rw [List.countP_append, List.countP_singleton, hl, hpc]
    simpa using hc.left
  fine_iff := by
    rw [Machine.Run.concat_iff hr hn, hpc, hc.fine_iff]
    constructor
    · intro hstands
      refine ⟨hstands, ?_⟩
      rintro a rfl
      simp [isCall] at hl
    · exact And.left

/-- A step of the commit itself. -/
theorem Course.own (hc : Course h i id s₁ as s) (hr : (machine h).Run (Answered i) s₁ as s)
    {a : Stmt} {d : Db} {pc : Pc} (ha : a ≠ .abort)
    (hst : stmt h i s.shared (s.proc i) a = some (d, pc))
    (hn : (machine h).next s (.call i a) = some ⟨d, Function.update s.proc i pc⟩) :
    Course h i id s₁ (as ++ [.call i a]) ⟨d, Function.update s.proc i pc⟩ := by
  rcases hc.stays with hcom | hend
  -- one statement further, and one less to go
  · obtain ⟨honward, hfiles⟩ := stmt_committing hst hcom ha
    have hpc : Function.update s.proc i pc i = pc := Function.update_self ..
    constructor
    · change (Function.update s.proc i pc i).Committing id ∨ (Function.update s.proc i pc i).Ended
      rw [hpc]
      exact honward.stays
    · rw [Machine.Run.concat_iff hr hn]
      refine ⟨hc.keeps, ?_⟩
      rintro a' t' heq hn'
      cases heq
      obtain rfl := Option.some.inj (hn.symm.trans hn')
      rcases hfiles with hf | hcomm
      · exact Or.inl hf
      · right
        change (Function.update s.proc i pc i).Committed
        rwa [hpc]
    · have hleft := honward.left
      have hbound := hc.left
      rw [List.countP_append, List.countP_singleton]
      change _ + (Function.update s.proc i pc i).commitLeft ≤ _
      rw [hpc]
      simp only [isCall, beq_self_eq_true, if_true]
      omega
    · rw [Machine.Run.concat_iff hr hn, ← hc.fine_iff]
      change (Function.update s.proc i pc i).Fine id ↔ _
      rw [hpc, honward.fine_iff]
      constructor
      · intro hstands
        refine ⟨hcom.fine, ?_⟩
        rintro a' heq
        cases heq
        exact hstands
      · rintro ⟨-, hstands⟩
        exact hstands a rfl
  · -- the call has ended: it takes no step
    rw [stmt_ended hend] at hst
    cases hst

/-- From where it stands a commit keeps its course in every interleaving. -/
theorem commit_course (h₁ : (s₁.proc i).Committing id)
    (hr : (machine h).Run (Answered i) s₁ as s) : Course h i id s₁ as s := by
  induction hr with
  | refl => exact .refl h₁
  | @step as t u l hr hok hn ih =>
      cases l with
      | call j a =>
          obtain ⟨d, pc, hst, rfl⟩ := Procs.next_call hn
          by_cases hji : j = i
          · subst hji
            refine ih.own hr ?_ hst hn
            rintro rfl
            exact hok rfl
          · refine ih.other hr hn (by simp [isCall, hji]) ?_
            exact Function.update_of_ne (Ne.symm hji) ..
      | env e =>
          obtain ⟨d, -, rfl⟩ := Procs.next_env hn
          exact ih.other hr hn rfl rfl

/-- The lookup of a PENDING row leads to ListParts or to HeadObject. -/
theorem Begins.starts (hb : Begins h i id s₀ s₁) :
    s₁.shared = s₀.shared ∧ ∃ row, (s₀.shared.files id).base = some row ∧
      ((∃ u, row.uploadId = some u ∧ s₁.proc i = .commitParts id row u) ∨
        row.uploadId = none ∧ s₁.proc i = .commitHead id row) := by
  obtain ⟨viewer, row, hpc, hrow, hpending, howner⟩ := hb.lookup
  obtain ⟨d, pc, hst, rfl⟩ := Procs.next_call hb.next
  change stmt h i s₀.shared (s₀.proc i) .run = some (d, pc) at hst
  rw [hpc] at hst
  have hown : checkOwned viewer (some row) = .ok row := by
    simp [checkOwned, howner]
  have hcompleted : row.status ≠ .completed := by
    rw [hpending]
    decide
  simp only [stmt, commitFind, hrow, hown, if_neg hcompleted, Option.some.injEq,
    Prod.mk.injEq] at hst
  obtain ⟨rfl, hst⟩ := hst
  refine ⟨rfl, row, hrow, ?_⟩
  change (∃ u, _ ∧ Function.update s₀.proc i pc i = _) ∨ _ ∧ Function.update s₀.proc i pc i = _
  rw [Function.update_self]
  cases hu : row.uploadId with
  | some u =>
      rw [hu] at hst
      exact Or.inl ⟨u, rfl, hst.symm⟩
  | none =>
      rw [hu] at hst
      exact Or.inr ⟨rfl, hst.symm⟩

/-- A commit of the caller's PENDING row, in any interleaving: no step of it changes a file
unless it answers COMPLETED, five statements at most after the lookup end it and only the
row lock can keep it waiting, and it is under way, has answered COMPLETED or has thrown a
409, 410 or 422 if and only if every storage call has found what it needs. -/
theorem commit_documented (h : Hashes) (i : ℕ) (id : FileId) (s₀ s₁ s : St) (as : List Label)
    (hb : Begins h i id s₀ s₁) (hr : (machine h).Run (Answered i) s₁ as s) :
    (machine h).Run (KeepsFiles h i) s₁ as s ∧
    as.countP (isCall i) + (s.proc i).commitLeft ≤ 5 ∧
    ((s.proc i).Committing id → (stmt h i s.shared (s.proc i) .run).isSome ∨
      ∃ j, j ≠ i ∧ (s.shared.files id).Held j) ∧
    ((s.proc i).Fine id ↔ (machine h).Run (StorageStands h i) s₁ as s) := by
  have hstart : (s₁.proc i).Committing id ∧ (s₁.proc i).commitLeft ≤ 5 := by
    obtain ⟨-, row, -, ⟨u, -, hpc⟩ | ⟨-, hpc⟩⟩ := hb.starts
    · rw [hpc]
      exact ⟨rfl, by simp [Pc.commitLeft]⟩
    · rw [hpc]
      exact ⟨rfl, by simp [Pc.commitLeft]⟩
  have hc : Course h i id s₁ as s := commit_course hstart.1 hr
  refine ⟨hc.keeps, ?_, stmt_ready, hc.fine_iff⟩
  have hleft := hc.left
  have hfive := hstart.2
  omega

/-! ## A commit that nobody disturbs -/

/-- Only call `i` acts. -/
def Only (i : ℕ) (_s : St) (l : Label) : Prop := ∃ a, l = .call i a ∧ a ≠ .abort

/-- The upload is gone and there is no object. -/
def Lost (h : Hashes) (b : Bucket) (row : FileRow) : Prop :=
  ∃ u, row.uploadId = some u ∧ b.listParts h row.key u = none ∧ b.head row.key = none

/-- Where an undisturbed commit of `row` is, if it has found the bucket `b₁`. -/
def Undisturbed (h : Hashes) (id : FileId) (row : FileRow) (b₁ : Bucket) (d : Db) : Pc → Prop
  | .commitParts k r u => k = id ∧ r = row ∧ row.uploadId = some u ∧ d.bucket = b₁
  | .commitGone k r => k = id ∧ r = row ∧ d.bucket = b₁ ∧
      ∃ u, row.uploadId = some u ∧ b₁.listParts h row.key u = none
  | .commitComplete k r u parts => k = id ∧ r = row ∧ d.bucket = b₁ ∧
      b₁.listParts h row.key u = some parts ∧ ¬ Lost h b₁ row
  | .commitHead k r => k = id ∧ r = row ∧ ¬ Lost h b₁ row
  | .commitRead k r _ => k = id ∧ r = row ∧ ¬ Lost h b₁ row ∧ (d.bucket.head row.key).isSome
  | .commitDelete k _ err => k = id ∧ Documented err ∧ ¬ Lost h b₁ row
  | .commitUpdate k _ _ _ => k = id ∧ ¬ Lost h b₁ row
  | .done result => (Pc.done result).Fine id ↔ ¬ Lost h b₁ row
  | _ => False

section

variable {row : FileRow} {b₁ : Bucket} {d d' : Db} {pc pc' : Pc} {a : Stmt}

/-- The parts that were listed are the parts that Complete finds. -/
theorem stands_listed {u : UploadId} {parts : List UploadedPart}
    (hlist : d.bucket.listParts h row.key u = some parts) :
    Stands h d (.commitComplete id row u parts) := by
  intro up hup p hp
  simp only [Bucket.listParts, hup, Option.map_some, Option.some.injEq] at hlist
  have hmem : p ∈ up.listed h := by
    unfold Upload.listed
    rwa [hlist]
  obtain ⟨-, body, hbody, hetag, -⟩ := mem_listed.mp hmem
  exact ⟨body, hbody, hetag.symm⟩

theorem undisturbed_fine (hpc : pc.Fine id) (hend : pc.Ended) (hlost : ¬ Lost h b₁ row) :
    Undisturbed h id row b₁ d pc := by
  obtain ⟨result, rfl⟩ := hend
  exact ⟨fun _ => hlost, fun _ => hpc⟩

/-- A commit that nobody disturbs goes on with the storage it found, whatever others do elsewhere.
-/
theorem stmt_undisturbed (hcall : row.contentType ∉ uncallable)
    (hst : stmt h i d pc a = some (d', pc')) (ha : a ≠ .abort)
    (hu : Undisturbed h id row b₁ d pc) : Undisturbed h id row b₁ d' pc' := by
  -- in the order of the commit: parts, completion, HEAD, first bytes, UPDATE
  cases stmt_does hst with
  | @parts k r u =>
      obtain ⟨rfl, rfl, hup, rfl⟩ := hu
      unfold commitParts
      split
      · next hlist => exact ⟨rfl, rfl, rfl, u, hup, hlist⟩
      · next parts hlist =>
          have hlost : ¬ Lost h d.bucket r := by
            rintro ⟨u', hup', hnone, -⟩
            obtain rfl := Option.some.inj (hup.symm.trans hup')
            rw [hlist] at hnone
            cases hnone
          split
          · exact undisturbed_fine (.throws (Or.inl rfl)) ⟨_, rfl⟩ hlost
          · dsimp only
            split
            · exact undisturbed_fine (.throws (Or.inl rfl)) ⟨_, rfl⟩ hlost
            · exact ⟨rfl, rfl, rfl, hlist, hlost⟩
  | @gone k r =>
      obtain ⟨rfl, rfl, rfl, u, hup, hlist⟩ := hu
      split
      · next hhead =>
          refine ⟨rfl, rfl, ?_⟩
          rintro ⟨u', -, -, hnone⟩
          rw [hnone] at hhead
          cases hhead
      · next hhead =>
          have hlost : Lost h d.bucket r := ⟨u, hup, hlist, Option.not_isSome_iff_eq_none.mp hhead⟩
          exact ⟨fun hf => absurd hf Pc.not_fine_fail, fun hn => absurd hlost hn⟩
  | @complete k r u parts =>
      obtain ⟨rfl, rfl, rfl, hlist, hlost⟩ := hu
      have hfine : (commitComplete h d k r u parts).2.Fine k :=
        commitComplete_fine_iff.mpr (stands_listed hlist)
      rcases commitComplete_cases h d k r u parts with ⟨err, heq⟩ | heq
      · exact undisturbed_fine hfine ⟨_, heq⟩ hlost
      · rw [heq]
        exact ⟨rfl, rfl, hlost⟩
  | @head k r =>
      obtain ⟨rfl, rfl, hlost⟩ := hu
      unfold commitHead
      split
      · exact undisturbed_fine (.throws (Or.inl rfl)) ⟨_, rfl⟩ hlost
      · next hhead =>
          split
          · exact ⟨rfl, Or.inl rfl, hlost⟩
          · exact ⟨rfl, rfl, hlost, by rw [hhead]; rfl⟩
  | @read k r head =>
      obtain ⟨rfl, rfl, hlost, hhead⟩ := hu
      have hfine : (commitRead d k r head).Fine k :=
        (commitRead_onward (h := h) head).fine_iff.mpr ⟨hhead, hcall⟩
      rcases commitRead_cases d k r head with ⟨err, heq⟩ | ⟨err, heq⟩ | ⟨magic, -, -, heq⟩
      · exact undisturbed_fine hfine ⟨_, heq⟩ hlost
      · rw [heq] at hfine ⊢
        rcases hfine with ⟨-, hdoc⟩ | hcom | ⟨err', heq', -⟩
        · exact ⟨rfl, hdoc, hlost⟩
        · exact hcom.elim
        · cases heq'
      · rw [heq]
        exact ⟨rfl, hlost⟩
  | delete =>
      obtain ⟨rfl, hdoc, hlost⟩ := hu
      exact undisturbed_fine (Or.inr (Or.inr ⟨_, rfl, hdoc⟩)) ⟨_, rfl⟩ hlost
  | deleteError =>
      obtain ⟨rfl, hdoc, hlost⟩ := hu
      exact undisturbed_fine (Or.inr (Or.inr ⟨_, rfl, hdoc⟩)) ⟨_, rfl⟩ hlost
  | update => exact undisturbed_fine (Or.inr (Or.inl trivial)) ⟨_, rfl⟩ hu.2
  | updateNothing => exact undisturbed_fine (Or.inr (Or.inl trivial)) ⟨_, rfl⟩ hu.2
  | abort => exact absurd rfl ha
  | _ => exact hu.elim

end

/-- A commit of a row whose type can be checked, with nobody else about, ends as documented
if and only if the upload is not gone or the object is there. -/
theorem commit_alone {row : FileRow} (hb : Begins h i id s₀ s₁)
    (hrow : (s₀.shared.files id).base = some row) (hcall : row.contentType ∉ uncallable)
    (hr : (machine h).Run (Only i) s₁ as s) (hend : (s.proc i).Ended) :
    (s.proc i).Fine id ↔ ¬ Lost h s₀.shared.bucket row := by
  have hrun : Undisturbed h id row s₀.shared.bucket s.shared (s.proc i) := by
    refine hr.invariant (P := fun s => Undisturbed h id row _ s.shared (s.proc i)) ?_ ?_
    · rintro t l u ⟨a, rfl, ha⟩ hn hu
      obtain ⟨d, pc, hst, rfl⟩ := Procs.next_call hn
      change Undisturbed h id row _ d (Function.update t.proc i pc i)
      rw [Function.update_self]
      exact stmt_undisturbed hcall hst ha hu
    · obtain ⟨hshared, row', hrow', hstart⟩ := hb.starts
      obtain rfl := Option.some.inj (hrow.symm.trans hrow')
      rcases hstart with ⟨u, hup, hpc⟩ | ⟨hup, hpc⟩
      · rw [hpc, hshared]
        exact ⟨rfl, rfl, hup, rfl⟩
      · rw [hpc]
        refine ⟨rfl, rfl, ?_⟩
        rintro ⟨u, hup', -⟩
        rw [hup] at hup'
        cases hup'
  obtain ⟨result, hpc⟩ := hend
  rw [hpc] at hrun ⊢
  exact hrun

/-! ## An archive whose upload has expired, and a picture -/

/-- Statements only: nobody crashes. -/
def isRun (_s : St) : Label → Bool
  | .call _ .abort => false
  | _ => true

theorem isRun_answered (s : St) (l : Label) (hl : isRun s l = true) : Answered i s l := by
  rintro rfl
  cases hl

/-- The lifecycle rule aborts the upload of the archive, and its owner commits. -/
def archiveExpired : List Label :=
  archiveIntent ++ [.env (.lifecycle ⟨7, 0, "gz"⟩ 0), .call 2 (.commit buyer 1)]

/-- A commit does not end as documented in every reachable state: the upload has expired. -/
theorem commit_undocumented : ¬ ∀ (i : ℕ) (id : FileId) (s₀ s₁ s : St) (as : List Label),
    (machine plainHashes).Reachable s₀ → Begins plainHashes i id s₀ s₁ →
    (machine plainHashes).Run (Answered i) s₁ as s → (s.proc i).Fine id := by
  intro hall
  have hrun : ∃ s₀ s₁ s row, (machine plainHashes).exec (fun _ _ => true) start archiveExpired =
        some s₀ ∧
      s₀.proc 2 = .commitFind buyer 1 ∧ (s₀.shared.files 1).base = some row ∧
      row.status = .pending ∧ row.ownerId = 7 ∧
      (machine plainHashes).next s₀ (.call 2 .run) = some s₁ ∧
      (machine plainHashes).exec isRun s₁ [.call 2 .run, .call 2 .run] = some s ∧
      s.proc 2 = Pc.fail "NoSuchUpload" :=
    ⟨_, _, _, _, rfl, rfl, rfl, rfl, rfl, rfl, rfl, rfl⟩
  obtain ⟨s₀, s₁, s, row, hexec, hpc, hrow, hp, hown, hfind, htail, hproc⟩ := hrun
  have hreach : (machine plainHashes).Reachable s₀ :=
    ⟨start, _, start_init plainHashes, Machine.exec_always hexec⟩
  have hbegins : Begins plainHashes 2 1 s₀ s₁ := ⟨hfind, buyer, row, hpc, hrow, hp, hown⟩
  have hr : (machine plainHashes).Run (Answered 2) s₁ [.call 2 .run, .call 2 .run] s :=
    Machine.exec_run isRun_answered htail
  have hfine := hall 2 1 s₀ s₁ s _ hreach hbegins hr
  rw [hproc] at hfine
  exact Pc.not_fine_fail hfine

/-- The picture is committed, and every storage call of its commit has found what it needs. -/
theorem commit_documented_png : ∃ s₀ s₁ s,
    (machine plainHashes).exec (fun _ _ => true) start (pngIntent ++
      [.env (.upload pngUrl pngHead), .call 2 (.commit buyer 1)]) = some s₀ ∧
    Begins plainHashes 2 1 s₀ s₁ ∧
    s.proc 2 = Pc.returns (.committed 1 pngUrl.key 8 "single") ∧
    (machine plainHashes).Run (StorageStands plainHashes 2) s₁
      [.call 2 .run, .call 2 .run, .call 2 .run] s := by
  have hrun : ∃ s₀ s₁ s row,
      (machine plainHashes).exec (fun _ _ => true) start (pngIntent ++
        [.env (.upload pngUrl pngHead), .call 2 (.commit buyer 1)]) = some s₀ ∧
      s₀.proc 2 = .commitFind buyer 1 ∧ (s₀.shared.files 1).base = some row ∧
      row.status = .pending ∧ row.ownerId = 7 ∧
      (machine plainHashes).next s₀ (.call 2 .run) = some s₁ ∧
      (machine plainHashes).exec isRun s₁ [.call 2 .run, .call 2 .run, .call 2 .run] =
        some s ∧
      s.proc 2 = Pc.returns (.committed 1 pngUrl.key 8 "single") :=
    ⟨_, _, _, _, rfl, rfl, rfl, rfl, rfl, rfl, rfl, rfl⟩
  obtain ⟨s₀, s₁, s, row, hexec, hpc, hrow, hp, hown, hfind, htail, hproc⟩ := hrun
  have hbegins : Begins plainHashes 2 1 s₀ s₁ := ⟨hfind, buyer, row, hpc, hrow, hp, hown⟩
  refine ⟨s₀, s₁, s, hexec, hbegins, hproc, ?_⟩
  have hr : (machine plainHashes).Run (Answered 2) s₁ _ s := Machine.exec_run isRun_answered htail
  have hiff := (commit_documented plainHashes 2 1 s₀ s₁ s _ hbegins hr).2.2.2
  rw [hproc] at hiff
  exact hiff.mp (Or.inr (Or.inl trivial))

end Marketplace.Files
