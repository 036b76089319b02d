import Marketplace.Files.Effects
import Marketplace.Files.Parts

/-!
# Files.Allowlist — can the upload allowlist be bypassed?

`intent` looks the type up in `ALLOWED_TYPES`, `commit` looks the rule up in `MAGIC`.
Both are plain objects, so both also answer to the names of `Object.prototype`: an
inherited member passes for an allowed type without a size cap, and most of them
accept any bytes (`allowlist_bypassed`). `allowlist_iff` says exactly where the two
checks do what they are there for.

* `Checked` is what a call has established by the time it writes: an `intent` at its
  INSERT, a `commit` at its UPDATE;
* `row_inserted`, `row_completed`: a row appears, and becomes COMPLETED, through these
  two statements only;
* `magic_read`: the bytes that a `commit` judges are the first 16 of the object, read at an
  earlier point of the run.
-/

namespace Marketplace.Files

open Core Auth

/-! ## Guarded intents, inserted and completed rows -/

/-- What the first step of `intent`, from `d` to `d'` and `pc'`, is to do: go on to the
INSERT only with an allowed type and size, refuse any other with 415 or 413, and
leave the table alone. -/
def IntentGuarded (input : IntentInput) (d d' : Db) (pc' : Pc) : Prop :=
  d'.files = d.files ∧
  (∀ viewer ext plan key, pc' = .intentInsert viewer input ext plan key →
    Allowed input.contentType input.size) ∧
  (input.contentType ∉ listedTypes → pc' = Pc.throws 415 "content type not allowed") ∧
  (input.contentType ∈ listedTypes → ¬ Allowed input.contentType input.size →
    pc' = Pc.throws 413 "file too large")

/-- The step from `s` to `t` inserts `row` under `id`. -/
def Inserted (s t : St) (id : FileId) (row : FileRow) : Prop :=
  (s.shared.files id).base = none ∧ (t.shared.files id).base = some row

/-- The step from `s` to `t` makes `row` COMPLETED. -/
def Completed (s t : St) (id : FileId) (row : FileRow) : Prop :=
  (∀ r, (s.shared.files id).base = some r → r.status = .pending) ∧
  (t.shared.files id).base = some row ∧ row.status = .completed

/-- The call that takes the step `l` in `s` has read `magic` from the object under `key`: earlier
in the run `as` these were the first 16 bytes of that object. -/
def ReadMagic (h : Hashes) (s₀ : St) (as : List Label) (s : St) (l : Label) (id : FileId)
    (key : ObjectKey) (magic : Bytes) : Prop :=
  ∃ i row head bs cs u v, l = .call i .run ∧ row.key = key ∧
    as = bs ++ .call i .run :: cs ∧ (machine h).Run Machine.Always s₀ bs u ∧
    (machine h).next u (.call i .run) = some v ∧ (machine h).Run Machine.Always v cs s ∧
    u.proc i = .commitRead id row head ∧
    u.shared.bucket.readRange key magicBytes = some magic ∧
    v.proc i = .commitUpdate id row head magic ∧ s.proc i = .commitUpdate id row head magic

/-- The allowlist and the content check cannot be bypassed. -/
def AllowlistHolds (h : Hashes) : Prop :=
  (∀ i d d' viewer input key pc', stmt h i d .idle (.intent viewer input key) = some (d', pc') →
    IntentGuarded input d d' pc') ∧
  (∀ s l t id row, (machine h).Reachable s → (machine h).next s l = some t →
    Inserted s t id row → Allowed row.contentType row.size) ∧
  ∀ s₀ as s l t id row, (machine h).Init s₀ → (machine h).Run Machine.Always s₀ as s →
    (machine h).next s l = some t → Completed s t id row →
    ∃ magic, ReadMagic h s₀ as s l id row.key magic ∧ MagicRule row.contentType magic

/-! ## The first step of intent -/

/-- What is allowed is one of the listed types. -/
theorem Allowed.listed {ct : String} {size : ℕ} (h : Allowed ct size) : ct ∈ listedTypes := by
  obtain ⟨type, ht, -⟩ := h
  by_contra hn
  rw [JsObject.lookup_eq_none_iff.mpr hn] at ht
  cases ht

theorem Allowed.not_proto {ct : String} {size : ℕ} (h : Allowed ct size) :
    ct ∉ JsObject.protoNames :=
  listed_not_proto ct h.listed

theorem allowedTypes_cap : ∀ p ∈ allowedTypes, p.2.maxBytes ≤ maxObjectBytes := by
  decide

/-- What a lookup finds is in the list. -/
theorem mem_of_lookup {β : Type} {l : List (String × β)} {name : String} {b : β}
    (h : l.lookup name = some b) : (name, b) ∈ l := by
  induction l with
  | nil => cases h
  | cons p l ih =>
      obtain ⟨k, c⟩ := p
      rw [List.lookup_cons] at h
      by_cases hk : name = k
      · subst hk
        have hc : c = b := by simpa using h
        rw [hc]
        exact List.mem_cons_self
      · have hb : (name == k) = false := by simpa using hk
        rw [hb] at h
        exact List.mem_cons_of_mem _ (ih h)

/-- A listed type: 413 above its cap, the INSERT below. -/
theorem intentChecks_listed (viewer : AccessClaims) {input : IntentInput} (key : Option String)
    (hct : input.contentType ∈ listedTypes) :
    (¬ Allowed input.contentType input.size ∧
      intentChecks viewer input key = Pc.throws 413 "file too large") ∨
    Allowed input.contentType input.size ∧
      ∃ ext plan, intentChecks viewer input key = .intentInsert viewer input ext plan key := by
  obtain ⟨type, ht, hl⟩ := lookup_listed hct
  unfold intentChecks
  rw [hl]
  by_cases hsize : type.maxBytes < input.size
  · left
    refine ⟨?_, ?_⟩
    · rintro ⟨type', ht', hle⟩
      rw [ht] at ht'
      cases ht'
      omega
    · simp [hsize]
  · right
    refine ⟨⟨type, ht, Nat.le_of_not_lt hsize⟩, ?_⟩
    have hcap : input.size ≤ maxObjectBytes :=
      Nat.le_trans (Nat.le_of_not_lt hsize) (allowedTypes_cap _ (mem_of_lookup ht))
    obtain ⟨plan, hplan⟩ := planParts_ok hcap
    by_cases hmulti : multipartThresholdBytes < input.size
    · exact ⟨type.ext, some plan, by simp [hsize, hmulti, hplan]⟩
    · exact ⟨type.ext, none, by simp [hsize, hmulti]⟩

theorem intentChecks_unknown (viewer : AccessClaims) {input : IntentInput} (key : Option String)
    (hct : input.contentType ∉ listedTypes) (hp : input.contentType ∉ JsObject.protoNames) :
    intentChecks viewer input key = Pc.throws 415 "content type not allowed" := by
  unfold intentChecks
  rw [JsObject.lookup_undefined hct hp]

/-- A name of `Object.prototype` is not refused as a type. -/
theorem intentChecks_proto {viewer : AccessClaims} {input : IntentInput} {key : Option String}
    (hp : input.contentType ∈ JsObject.protoNames) :
    intentChecks viewer input key ≠ Pc.throws 415 "content type not allowed" := by
  have hct : input.contentType ∉ listedTypes := fun hin => listed_not_proto _ hin hp
  obtain ⟨m, hl⟩ := JsObject.lookup_inherited hct hp
  unfold intentChecks
  rw [hl]
  simp only [Option.any_none, Bool.false_eq_true, if_false, Pc.throws, Pc.fail]
  split
  · split <;> simp
  · simp

theorem intent_step {h : Hashes} {i : ℕ} {d d' : Db} {viewer : AccessClaims}
    {input : IntentInput} {key : Option String} {pc' : Pc}
    (hst : stmt h i d .idle (.intent viewer input key) = some (d', pc')) :
    d' = d ∧ pc' = intentChecks viewer input key := by
  cases hst
  exact ⟨rfl, rfl⟩

/-- The size check guards an intent exactly if its type is no member of `Object.prototype`. -/
theorem intentGuarded_iff {h : Hashes} {i : ℕ} {d d' : Db} {viewer : AccessClaims}
    {input : IntentInput} {key : Option String} {pc' : Pc}
    (hst : stmt h i d .idle (.intent viewer input key) = some (d', pc')) :
    IntentGuarded input d d' pc' ↔ input.contentType ∉ JsObject.protoNames := by
  obtain ⟨rfl, rfl⟩ := intent_step hst
  constructor
  · rintro ⟨-, -, h415, -⟩ hp
    exact intentChecks_proto hp (h415 fun hin => listed_not_proto _ hin hp)
  · intro hp
    by_cases hct : input.contentType ∈ listedTypes
    · rcases intentChecks_listed viewer key hct with
        ⟨hna, h413⟩ | ⟨ha, ext, plan, hins⟩
      · refine ⟨rfl, ?_, fun hn => absurd hct hn, fun _ _ => h413⟩
        intro v e p k heq
        rw [h413] at heq
        cases heq
      · exact ⟨rfl, fun _ _ _ _ _ => ha, fun hn => absurd hct hn, fun _ hn => absurd ha hn⟩
    · have h415 := intentChecks_unknown viewer key hct hp
      refine ⟨rfl, ?_, fun _ => h415, fun hin => absurd hin hct⟩
      intro v e p k heq
      rw [h415] at heq
      cases heq

/-! ## What a call has checked -/

/-- The committed row of `id`, if there is one, is the file that `row` is. -/
def SameFile (d : Db) (id : FileId) (row : FileRow) : Prop :=
  id < d.nextFile ∧ ∀ r, (d.files id).base = some r →
    r.key = row.key ∧ r.contentType = row.contentType ∧ r.size = row.size

/-- What a call knows when it is about to write. -/
def Checked (_i : ℕ) (d : Db) : Pc → Prop
  | .intentInsert _ input _ _ _ =>
      Allowed input.contentType input.size ∨ input.contentType ∈ JsObject.protoNames
  | .commitParts id row _ | .commitGone id row | .commitComplete id row _ _
  | .commitHead id row | .commitRead id row _ => SameFile d id row
  | .commitUpdate id row _ magic =>
      SameFile d id row ∧ magicMatches row.contentType magic = .ok true
  | _ => True

/-- A call that has just read its row knows that it is the file's. -/
theorem Checked.of_loaded {i : ℕ} {d : Db} {pc : Pc} {id : FileId} {row : FileRow}
    (hp : pc.Loaded id row) (hs : SameFile d id row) : Checked i d pc := by
  cases pc with
  | commitParts _ _ _ | commitGone _ _ | commitComplete _ _ _ _ | commitHead _ _ =>
      obtain ⟨rfl, rfl⟩ := hp
      exact hs
  | _ => exact hp.elim

/-- A call with a row in hand knows that it is the file's. -/
theorem Checked.loaded {i : ℕ} {d : Db} {pc : Pc} {id : FileId} {row : FileRow}
    (hk : Checked i d pc) (hp : pc.Loaded id row) : SameFile d id row := by
  cases pc with
  | commitParts _ _ _ | commitGone _ _ | commitComplete _ _ _ _ | commitHead _ _ =>
      obtain ⟨rfl, rfl⟩ := hp
      exact hk
  | _ => exact hp.elim

/-- A call without a row in hand need know nothing. -/
theorem Checked.of_plain {i : ℕ} {d : Db} {pc : Pc} (hp : pc.Plain) : Checked i d pc := by
  cases pc with
  | intentInsert _ _ _ _ _ | commitParts _ _ _ | commitGone _ _ | commitComplete _ _ _ _
  | commitHead _ _ | commitRead _ _ _ | commitUpdate _ _ _ _ => exact hp.elim
  | _ => trivial

/-- File ids are drawn in order. -/
theorem Effect.nextFile_le {i : ℕ} {d d' : Db} {pc : Pc} (he : Effect i d d' pc) :
    d.nextFile ≤ d'.nextFile := by
  cases he with
  | same _ hn => exact Nat.le_of_eq hn.symm
  | insert hd =>
      subst hd
      exact Nat.le_succ _
  | setUpload _ _ hd => exact hd ▸ Nat.le_refl _
  | complete _ _ _ hd => exact hd ▸ Nat.le_refl _
  | lock _ hd => exact hd ▸ Nat.le_refl _
  | delete hd => exact hd ▸ Nat.le_refl _
  | commit hd => exact hd ▸ Nat.le_refl _
  | rollback hd => exact hd ▸ Nat.le_refl _

/-- A row keeps its key, its type and its size. -/
theorem SameFile.effect {i : ℕ} {d d' : Db} {pc : Pc} {id : FileId} {row : FileRow}
    (he : Effect i d d' pc) (hv : Versions d) (h : SameFile d id row) :
    SameFile d' id row := by
  refine ⟨Nat.lt_of_lt_of_le h.1 he.nextFile_le, ?_⟩
  intro r' hr'
  cases he.rowChange hv id with
  | keep hb => exact h.2 r' (hb ▸ hr')
  | gone hb =>
      rw [hb] at hr'
      cases hr'
  | insert hid _ _ => exact absurd hid (Nat.ne_of_lt h.1)
  | setUpload hb hb' =>
      rw [hb'] at hr'
      cases hr'
      have hrow := h.2 _ hb
      exact hrow
  | complete hb _ hb' =>
      rw [hb'] at hr'
      cases hr'
      have hrow := h.2 _ hb
      exact hrow

/-- A committed row is the file's own. -/
theorem SameFile.of_base {d : Db} {id : FileId} {row : FileRow} (hv : Versions d)
    (hb : (d.files id).base = some row) : SameFile d id row := by
  refine ⟨hv.lt hb, ?_⟩
  intro r hr
  rw [hb] at hr
  cases hr
  exact ⟨rfl, rfl, rfl⟩

/-- What a call knows of its row stays true while rows keep key, type and size. -/
theorem Checked.mono {i j : ℕ} {d d' : Db} {pc : Pc}
    (hs : ∀ id row, SameFile d id row → SameFile d' id row) (h : Checked i d pc) :
    Checked j d' pc := by
  cases pc with
  | intentInsert _ _ _ _ _ => exact h
  | commitParts id row _ => exact hs id row h
  | commitGone id row => exact hs id row h
  | commitComplete id row _ _ => exact hs id row h
  | commitHead id row => exact hs id row h
  | commitRead id row _ => exact hs id row h
  | commitUpdate id row _ _ => exact ⟨hs id row h.1, h.2⟩
  | _ => trivial

/-- After the checks of an intent the call knows that type and size passed them. -/
theorem intentChecks_checked {i : ℕ} {d : Db} {viewer : AccessClaims} {input : IntentInput}
    {key : Option String} : Checked i d (intentChecks viewer input key) := by
  rcases intentChecks_cases viewer input key with ⟨err, herr⟩ | ⟨ext, plan, hins, -⟩
  · rw [herr]
    trivial
  · rw [hins]
    by_cases hct : input.contentType ∈ listedTypes
    · rcases intentChecks_listed viewer key hct with
        ⟨-, h413⟩ | ⟨ha, -⟩
      · rw [h413] at hins
        cases hins
      · exact Or.inl ha
    · by_cases hp : input.contentType ∈ JsObject.protoNames
      · exact Or.inr hp
      · rw [intentChecks_unknown viewer key hct hp] at hins
        cases hins

/-- A statement establishes the next fact of its call. -/
theorem Next.checked {h : Hashes} {i : ℕ} {d d' : Db} {pc pc' : Pc} (hn : Next h d d' pc pc')
    (hv : Versions d) (he : Effect i d d' pc) (hk : Checked i d pc) : Checked i d' pc' := by
  cases hn with
  | plain hp _ => exact Checked.of_plain hp
  | checks => exact intentChecks_checked
  | load hb hp _ => exact Checked.of_loaded hp ((SameFile.of_base hv hb).effect he hv)
  | list _ hd => exact hd ▸ hk
  | pass hp hp' _ => exact Checked.of_loaded hp' ((hk.loaded hp).effect he hv)
  | head _ _ hd => exact hd ▸ hk
  | read _ hm hd => exact hd ▸ ⟨hk, hm⟩

/-- In every reachable state the versions of a row agree and every call has checked
what it is about to write. -/
theorem checked_reachable {h : Hashes} {s : St} (hs : (machine h).Reachable s) :
    Procs.Holds Versions Checked s := by
  obtain ⟨s₀, as, hinit, hr⟩ := hs
  have h₀ : Procs.Holds Versions Checked s₀ := by
    refine ⟨Versions.init hinit.1, ?_⟩
    intro i
    rw [hinit.2 i]
    trivial
  refine Procs.noninterference Machine.Always Versions Checked ?_ ?_ hr h₀
  · intro s i a d p _ hs hst
    have he := stmt_effect hst
    refine ⟨he.versions hs.1, (stmt_next hst).checked hs.1 he (hs.2 i), ?_⟩
    intro j _
    exact (hs.2 j).mono fun id row hrow => hrow.effect he hs.1
  · intro s e d _ hs he
    obtain ⟨hf, hn⟩ := env_files he
    refine ⟨hs.1.env he, ?_⟩
    intro j
    refine (hs.2 j).mono ?_
    intro id row hrow
    unfold SameFile
    rw [hf, hn]
    exact hrow

/-! ## The bytes an inherited member accepts -/

/-- The bytes pass through a member of `Object.prototype`: four of them accept any
bytes, four accept bytes that spell a property name. -/
def AcceptedByProto (contentType : String) (head : Bytes) : Prop :=
  contentType ∈ ["constructor", "toString", "toLocaleString", "valueOf"] ∨
  (contentType ∈ ["hasOwnProperty", "propertyIsEnumerable"] ∧
    ∃ type ∈ listedTypes, decodesTo head type = true) ∨
  contentType ∈ ["__lookupGetter__", "__lookupSetter__"] ∧ decodesTo head "__proto__" = true

/-- A lookup in the table of magic bytes finds an inherited member exactly for the names of
`Object.prototype`. -/
theorem inherited_eq {ct : String} {m : JsObject.ProtoMember} :
    JsObject.lookup magic ct = .inherited m ↔ (ct, m) ∈ JsObject.protoMembers := by
  constructor
  · intro hl
    have hp := JsObject.lookup_inherited_mem hl
    rw [JsObject.lookup_of_not_own hp.1] at hl
    cases hm : JsObject.protoMembers.lookup ct with
    | none =>
        rw [hm] at hl
        cases hl
    | some m' =>
        rw [hm] at hl
        cases hl
        exact mem_of_lookup hm
  · intro hin
    have hall : ∀ p ∈ JsObject.protoMembers, p.1 ∉ magic.map Prod.fst ∧
        JsObject.protoMembers.lookup p.1 = some p.2 := by decide
    obtain ⟨hout, hm⟩ := hall (ct, m) hin
    rw [JsObject.lookup_of_not_own hout, hm]

/-- Which inherited members accept which bytes. -/
theorem inheritedAccepts_iff {ct : String} {head : Bytes} :
    InheritedAccepts ct head ↔ AcceptedByProto ct head := by
  have hown : ((magic.map Prod.fst).any (decodesTo head) = true) ↔
      ∃ type ∈ listedTypes, decodesTo head type = true := by
    rw [magic_keys, List.any_eq_true]
  constructor
  -- only a member that can be called with the bytes as `this` can accept anything
  · rintro ⟨m, hl, hm⟩
    have hin := inherited_eq.mp hl
    simp only [JsObject.protoMembers, List.mem_cons, Prod.mk.injEq, List.not_mem_nil,
      or_false] at hin
    rcases hin with ⟨rfl, rfl⟩ | ⟨rfl, rfl⟩ | ⟨rfl, rfl⟩ | ⟨rfl, rfl⟩ | ⟨rfl, rfl⟩ | ⟨rfl, rfl⟩ |
      ⟨rfl, rfl⟩ | ⟨rfl, rfl⟩ | ⟨rfl, rfl⟩ | ⟨rfl, rfl⟩ | ⟨rfl, rfl⟩ | ⟨rfl, rfl⟩
    · exact Or.inl (by decide)
    · cases hm
    · cases hm
    · exact Or.inr (Or.inl ⟨by decide, hown.mp (Except.ok.inj hm)⟩)
    · exact Or.inr (Or.inr ⟨by decide, (Bool.and_eq_true_iff.mp (Except.ok.inj hm)).1⟩)
    · exact Or.inr (Or.inr ⟨by decide, (Bool.and_eq_true_iff.mp (Except.ok.inj hm)).1⟩)
    · cases hm
    · exact Or.inr (Or.inl ⟨by decide, hown.mp (Except.ok.inj hm)⟩)
    · exact Or.inl (by decide)
    · exact Or.inl (by decide)
    · cases hm
    · exact Or.inl (by decide)
  · have hproto : (!(magic.map Prod.fst).contains "__proto__") = true := by decide
    rintro (hin | ⟨hin, htype⟩ | ⟨hin, hproto'⟩)
    · simp only [List.mem_cons, List.not_mem_nil, or_false] at hin
      rcases hin with rfl | rfl | rfl | rfl
      · exact ⟨.constructor, inherited_eq.mpr (by decide), rfl⟩
      · exact ⟨.toString, inherited_eq.mpr (by decide), rfl⟩
      · exact ⟨.toLocaleString, inherited_eq.mpr (by decide), rfl⟩
      · exact ⟨.valueOf, inherited_eq.mpr (by decide), rfl⟩
    · simp only [List.mem_cons, List.not_mem_nil, or_false] at hin
      rcases hin with rfl | rfl
      · exact ⟨.hasOwnProperty, inherited_eq.mpr (by decide), congrArg _ (hown.mpr htype)⟩
      · exact ⟨.propertyIsEnumerable, inherited_eq.mpr (by decide),
          congrArg _ (hown.mpr htype)⟩
    · have hcall := Bool.and_eq_true_iff.mpr ⟨hproto', hproto⟩
      simp only [List.mem_cons, List.not_mem_nil, or_false] at hin
      rcases hin with rfl | rfl
      · exact ⟨.lookupGetter, inherited_eq.mpr (by decide), congrArg _ hcall⟩
      · exact ⟨.lookupSetter, inherited_eq.mpr (by decide), congrArg _ hcall⟩

/-! ## The two writes -/

/-- A row that a step inserts has an allowed type and size, or the name of an inherited member for
its type. -/
theorem row_inserted {h : Hashes} {s t : St} {l : Label} {id : FileId} {row : FileRow}
    (hs : (machine h).Reachable s) (hn : (machine h).next s l = some t)
    (hins : Inserted s t id row) :
    Allowed row.contentType row.size ∨ row.contentType ∈ JsObject.protoNames := by
  have hk := checked_reachable hs
  obtain ⟨hb, hb'⟩ := hins
  cases l with
  | env e =>
      obtain ⟨d, he, rfl⟩ := Procs.next_env hn
      change (d.files id).base = some row at hb'
      rw [(env_files he).1, hb] at hb'
      cases hb'
  | call i a =>
      obtain ⟨d, p, hst, rfl⟩ := Procs.next_call hn
      have hloc := hk.2 i
      have hst' : stmt h i s.shared (s.proc i) a = some (d, p) := hst
      -- of the ways a row can change, only an insert makes one that was not there
      have hchange := (stmt_effect hst').rowChange hk.1 id
      generalize s.proc i = pc at hchange hloc
      change (d.files id).base = some row at hb'
      cases hchange with
      | keep heq =>
          rw [heq, hb] at hb'
          cases hb'
      | gone heq =>
          rw [heq] at hb'
          cases hb'
      | insert _ _ heq =>
          rw [heq] at hb'
          cases hb'
          exact hloc
      | setUpload heq _ =>
          rw [hb] at heq
          cases heq
      | complete heq _ _ =>
          rw [hb] at heq
          cases heq

/-- A call that is at its UPDATE has read the bytes it judges. -/
theorem magic_read {h : Hashes} {s₀ s : St} {as : List Label} {i : ℕ} {id : FileId}
    {row : FileRow} {head : ObjectHead} {magic : Bytes} (hinit : (machine h).Init s₀)
    (hr : (machine h).Run Machine.Always s₀ as s)
    (hpc : s.proc i = .commitUpdate id row head magic) :
    ReadMagic h s₀ as s (.call i .run) id row.key magic := by
  have hidle : ¬ s₀.proc i = .commitUpdate id row head magic := by
    rw [hinit.2 i]
    exact Pc.noConfusion
  obtain ⟨bs, l, cs, u, v, rfl, hbefore, hu, hn, hv, hafter⟩ :=
    hr.entered (P := fun s => s.proc i = .commitUpdate id row head magic) hidle hpc
  -- the step that brought the call there is its own, and it is the range read
  cases l with
  | env e =>
      obtain ⟨d, -, rfl⟩ := Procs.next_env hn
      exact absurd hv hu
  | call j a =>
      obtain ⟨d, p, hst, rfl⟩ := Procs.next_call hn
      have hji : j = i := by
        by_contra hne
        change Function.update u.proc j p i = _ at hv
        rw [Function.update_of_ne (Ne.symm hne)] at hv
        exact hu hv
      subst hji
      have hp : p = .commitUpdate id row head magic := by
        change Function.update u.proc j p j = _ at hv
        rwa [Function.update_self] at hv
      have hst' : stmt h j u.shared (u.proc j) a = some (d, p) := hst
      obtain ⟨hread, hrun, hmagic⟩ := (stmt_does hst').read_of hp
      subst hrun
      exact ⟨j, row, head, bs, cs, u, _, rfl, rfl, rfl, hbefore, hn, hafter, hread, hmagic, hv, hpc⟩

/-- A row that a step completes had its first bytes read from the object under its key, and they
match the type. -/
theorem row_completed {h : Hashes} {s₀ s t : St} {as : List Label} {l : Label} {id : FileId}
    {row : FileRow} (hinit : (machine h).Init s₀) (hr : (machine h).Run Machine.Always s₀ as s)
    (hn : (machine h).next s l = some t) (hc : Completed s t id row) :
    ∃ magic, ReadMagic h s₀ as s l id row.key magic ∧
      magicMatches row.contentType magic = .ok true := by
  have hk := checked_reachable ⟨s₀, as, hinit, hr⟩
  obtain ⟨hpend, hb', hrow⟩ := hc
  -- the row is new in this step, so the step is the UPDATE of a commit
  have hnot : (s.shared.files id).base ≠ some row := by
    intro hb
    have hp := hpend row hb
    rw [hrow] at hp
    cases hp
  cases l with
  | env e =>
      obtain ⟨d, he, rfl⟩ := Procs.next_env hn
      change (d.files id).base = some row at hb'
      rw [(env_files he).1] at hb'
      exact absurd hb' hnot
  | call i a =>
      obtain ⟨d, p, hst, rfl⟩ := Procs.next_call hn
      have hloc := hk.2 i
      have hst' : stmt h i s.shared (s.proc i) a = some (d, p) := hst
      have hchange := (stmt_effect hst').rowChange hk.1 id
      have hpc : ∃ pc, s.proc i = pc := ⟨_, rfl⟩
      obtain ⟨pc, hpc⟩ := hpc
      rw [hpc] at hchange hloc hst'
      change (d.files id).base = some row at hb'
      cases hchange with
      | keep heq =>
          rw [heq] at hb'
          exact absurd hb' hnot
      | gone heq =>
          rw [heq] at hb'
          cases hb'
      | insert _ _ heq =>
          rw [heq] at hb'
          cases hb'
          cases hrow
      | setUpload heq heq' =>
          rw [heq'] at hb'
          cases hb'
          have hp := hpend _ heq
          rw [hrow] at hp
          cases hp
      | @complete row₀ r head magic heq _ heq' =>
          rw [heq'] at hb'
          cases hb'
          obtain ⟨hsame, hm⟩ := hloc
          have ha : a = .run := by
            cases a with
            | run => rfl
            | abort =>
                simp [stmt, Pc.Open] at hst'
                rw [← hst'.1] at heq'
                change ((s.shared.files id).rollback i).base = _ at heq'
                rw [Slot.rollback_base] at heq'
                exact absurd heq' hnot
            | _ => simp [stmt] at hst'
          obtain ⟨hkey, hct, -⟩ := hsame.2 r heq
          refine ⟨magic, ?_, ?_⟩
          · change ReadMagic h s₀ as s (.call i a) id r.key magic
            rw [hkey, ha]
            exact magic_read hinit hr hpc
          · change magicMatches r.contentType magic = .ok true
            rw [hct]
            exact hm

/-- The allowlist and the content check do what they are there for, except for the
names of `Object.prototype`. -/
theorem allowlist_iff (h : Hashes) :
    (∀ i d d' viewer input key pc',
      stmt h i d .idle (.intent viewer input key) = some (d', pc') →
      (IntentGuarded input d d' pc' ↔ input.contentType ∉ JsObject.protoNames)) ∧
    (∀ s l t id row, (machine h).Reachable s → (machine h).next s l = some t →
      Inserted s t id row →
      (Allowed row.contentType row.size ↔ row.contentType ∉ JsObject.protoNames)) ∧
    ∀ s₀ as s l t id row, (machine h).Init s₀ → (machine h).Run Machine.Always s₀ as s →
      (machine h).next s l = some t → Completed s t id row →
      ∃ magic, ReadMagic h s₀ as s l id row.key magic ∧
        (MagicRule row.contentType magic ↔ ¬ AcceptedByProto row.contentType magic) := by
  refine ⟨fun i d d' viewer input key pc' hst => intentGuarded_iff hst, ?_, ?_⟩
  · intro s l t id row hs hn hins
    have hor := row_inserted hs hn hins
    constructor
    · exact Allowed.not_proto
    · intro hp
      exact hor.resolve_right hp
  · intro s₀ as s l t id row hinit hr hn hc
    obtain ⟨magic, hread, hm⟩ := row_completed hinit hr hn hc
    refine ⟨magic, hread, ?_⟩
    have hor := magicMatches_iff.mp hm
    rw [← inheritedAccepts_iff]
    constructor
    · exact MagicRule.not_inherited
    · intro hi
      exact hor.resolve_right hi

/-! ## A file that is no type at all -/

def plainHashes : Hashes := ⟨fun _ => "single", fun _ => "multipart"⟩

def emptyBucket : Bucket where
  objects := fun _ => none
  uploads := fun _ => none
  nextUpload := 0

def emptyDb : Db where
  files := fun _ => Slot.settled none
  bucket := emptyBucket
  urls := []
  now := 0
  nextFile := 1
  nextUuid := 0

def start : St := ⟨emptyDb, fun _ => .idle⟩

theorem start_init (h : Hashes) : (machine h).Init start :=
  ⟨⟨fun _ => rfl, fun _ => rfl, fun _ => rfl, rfl⟩, fun _ => rfl⟩

def buyer : AccessClaims := { sub := 7, role := .buyer, jti := 0, fid := 0, exp := 0 }

/-- An intent for a type with one byte, an upload of `body`, and a commit up to its
UPDATE. -/
def uploadAndCommit (contentType : String) (body : Bytes) : List Label :=
  [.call 1 (.intent buyer ⟨contentType, 1⟩ none), .call 1 .run, .call 1 .run,
    .env (.upload ⟨⟨7, 0, "undefined"⟩, .put contentType, 1, secs putUrlTtlSec⟩ body),
    .call 2 (.commit buyer 1), .call 2 .run, .call 2 .run, .call 2 .run]

/-- A page of markup, uploaded and committed as a `constructor`. -/
theorem allowlist_bypassed : ¬ AllowlistHolds plainHashes := by
  rintro ⟨-, -, hcommit⟩
  have hrun : ∃ s₁ s₂ row, (machine plainHashes).exec (fun _ _ => true) start
        (uploadAndCommit "constructor" [0x3c]) = some s₁ ∧
      (machine plainHashes).next s₁ (.call 2 .run) = some s₂ ∧
      (∃ r, (s₁.shared.files 1).base = some r ∧ r.status = .pending) ∧
      (s₂.shared.files 1).base = some row ∧ row.status = .completed ∧
      row.contentType = "constructor" :=
    ⟨_, _, _, rfl, rfl, ⟨_, rfl, rfl⟩, rfl, rfl, rfl⟩
  obtain ⟨s₁, s₂, row, hexec, hstep, ⟨r, hb, hp⟩, hb', hc, hct⟩ := hrun
  have hr := Machine.exec_always hexec
  obtain ⟨magic, -, hm⟩ := hcommit start _ s₁ (.call 2 .run) s₂ 1 row (start_init plainHashes) hr
    hstep ⟨by intro r' hr'; rw [hb] at hr'; cases hr'; exact hp, hb', hc⟩
  have hlisted := hm.listed
  rw [hct] at hlisted
  exact absurd hlisted (by decide)

end Marketplace.Files
