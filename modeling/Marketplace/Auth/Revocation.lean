import Marketplace.Auth.Steps

/-!
# Auth.Revocation — is revoking a family final?

`revokeFamily` is one UPDATE over the rows that were committed when it started.
A rotation that is open at that moment inserts the next row of the family behind
its back: the UPDATE waits for the rotated row, never sees the new one, and the
family survives its own revocation (`revocation_not_final`).

Without that overlap revocation is final (`revocation_final`). The argument has
two phases:

* while a revocation is open, `Covered` holds: every committed live row of the
  family is still ahead of the UPDATE or already revoked in the own version, and a
  rotation in progress holds such a row (`HoldsLive`), so the UPDATE cannot pass it;
* once it commits, `Dead` holds: every version of every row of the family is
  revoked and no call is rotating one. `Dead` is inductive on its own.
-/

namespace Marketplace.Auth

open Core

/-! ## Revocations, and what races with them -/

/-- The family UPDATE of this open transaction has begun. -/
def Pc.Revoking (F : FamilyId) : Pc → Prop
  | .revokeRows _ f _ _ | .denyFamily _ f _ | .denyJti _ f _ | .sweep _ (.finishLogout f) _
  | .commit (.reuse f) | .commit (.loggedOut f) => f = F
  | _ => False

/-- The next statement is the COMMIT of a logout of `F`, or of a refresh that
detected reuse in `F`. -/
def Pc.CommitsRevocation (F : FamilyId) (pc : Pc) : Prop :=
  pc = .commit (.loggedOut F) ∨ pc = .commit (.reuse F)

/-- Only refresh and logout calls. -/
def RefreshesAndLogouts (_s : St) : Label → Prop
  | .call _ (.login _) => False
  | _ => True

/-- A refresh never commits a new row of a family while another open transaction
has begun its UPDATE of that family. -/
def NoRace (s : St) (l : Label) : Prop :=
  RefreshesAndLogouts s l ∧
  ∀ i F pair, l = .call i .run → s.proc i = .commit (.ok F pair) →
    ∀ j, j ≠ i → ¬ (s.proc j).Revoking F

/-- Revoking the family `F` is final, in every run from `s₀` whose steps meet `ok`: take a
run up to the COMMIT of a revocation of `F`, and go on until every transaction that was
open then has ended. No row of `F` is live, and no refresh that begins later
returns a pair of `F`. -/
def RevocationFinal (ok : St → Label → Prop) (F : FamilyId) (s₀ : St) : Prop :=
  ∀ (s₁ s₁' s₂ : St) (as bs : List Label) (i : ℕ),
    machine.Run ok s₀ as s₁ →
    (s₁.proc i).CommitsRevocation F → ok s₁ (.call i .run) →
    machine.next s₁ (.call i .run) = some s₁' →
    machine.Run ok s₁' bs s₂ → (∀ j, (s₁'.proc j).Open → ¬ (s₂.proc j).Open) →
    (∀ k row, (s₂.shared.refreshTokens k).base = some row → row.familyId = F →
      row.revokedAt ≠ none) ∧
    ∀ cs s₃, machine.Run ok s₂ cs s₃ → ∀ j pair, s₂.proc j = .idle →
      s₃.proc j ≠ .done (.ok F pair)

/-! ## Versions of a row -/

/-- The own version of a row keeps its family, and keeps it revoked. -/
def VersionOk (c : Slot ℕ RefreshRow) : Prop :=
  ∀ j r b, c.lock = some (j, some r) → c.base = some b →
    r.familyId = b.familyId ∧ (r.revokedAt = none → b.revokedAt = none)

/-- Tokens not drawn yet are in no version of the table; versions are in order. -/
def TokensOk (d : Db) : Prop :=
  (∀ k, d.nextToken ≤ k → d.refreshTokens k = Slot.settled none) ∧
  ∀ k, VersionOk (d.refreshTokens k)

theorem VersionOk.settled (v : Option RefreshRow) : VersionOk (Slot.settled v) := by
  intro j r b hl
  simp at hl

/-- A draft of a row is in the family of the committed version, and revokes it or leaves it as it
is. -/
theorem VersionOk.view {c : Slot ℕ RefreshRow} {i : ℕ} {r b : RefreshRow} (h : VersionOk c)
    (hv : c.view i = some r) (hb : c.base = some b) :
    r.familyId = b.familyId ∧ (r.revokedAt = none → b.revokedAt = none) := by
  by_cases hh : c.Held i
  · have hl := hh.lock_eq
    rw [hv] at hl
    exact h i r b hl hb
  · rw [Slot.view_of_not_held hh, hb] at hv
    cases hv
    exact ⟨rfl, id⟩

/-- A new version that agrees with the one it replaces. -/
theorem VersionOk.put {c : Slot ℕ RefreshRow} {i : ℕ} {r r' : RefreshRow} (h : VersionOk c)
    (hv : c.view i = some r) (hf : r'.familyId = r.familyId)
    (hr : r'.revokedAt = none → r.revokedAt = none) : VersionOk (c.put i (some r')) := by
  intro j q b hl hb
  simp only [Slot.put_lock, Option.some.injEq, Prod.mk.injEq] at hl
  obtain ⟨-, rfl⟩ := hl
  have hrb := h.view hv hb
  exact ⟨hf.trans hrb.1, fun hn => hrb.2 (hr hn)⟩

theorem VersionOk.put_none {c : Slot ℕ RefreshRow} {i : ℕ} : VersionOk (c.put i none) := by
  intro j r b hl
  simp at hl

/-- A COMMIT keeps the versions of a row in order. -/
theorem VersionOk.commit {c : Slot ℕ RefreshRow} (i : ℕ) (h : VersionOk c) :
    VersionOk (c.commit i) := by
  by_cases hh : c.Held i
  · rw [Slot.commit_of_held hh]
    exact VersionOk.settled _
  · rwa [Slot.commit_of_not_held hh]

/-- A ROLLBACK keeps the versions of a row in order. -/
theorem VersionOk.rollback {c : Slot ℕ RefreshRow} (i : ℕ) (h : VersionOk c) :
    VersionOk (c.rollback i) := by
  by_cases hh : c.Held i
  · rw [Slot.rollback_of_held hh]
    exact VersionOk.settled _
  · rwa [Slot.rollback_of_not_held hh]

/-- At the start no row has a draft. -/
theorem TokensOk.init {d : Db} (h : Init d) : TokensOk d := by
  obtain ⟨hl, -, -, hb⟩ := h
  have hset : ∀ k, d.refreshTokens k = Slot.settled (d.refreshTokens k).base := by
    intro k
    have hk := hl k
    cases hc : d.refreshTokens k with
    | mk b l =>
        rw [hc] at hk
        have hk' : l = none := hk
        rw [hk']
        rfl
  constructor
  · intro k hk
    rw [hset k, hb k hk]
  · intro k
    rw [hset k]
    exact VersionOk.settled _

/-- A write to a row whose versions are in order keeps the table in order. -/
theorem TokensOk.putToken {d : Db} {i : ℕ} {k : Token} {v : Option RefreshRow}
    (h : TokensOk d) (hk : k < d.nextToken)
    (hv : VersionOk ((d.refreshTokens k).put i v)) : TokensOk (d.putToken i k v) := by
  constructor
  · intro k' hk'
    have hne : k' ≠ k := Nat.ne_of_gt (Nat.lt_of_lt_of_le hk hk')
    rw [Db.putToken_refreshTokens, Table.put_ne hne]
    exact h.1 k' hk'
  · intro k'
    rw [Db.putToken_refreshTokens, Table.put_apply]
    split
    · exact hv
    · exact h.2 k'

/-- A row that is there at all, in any version, has been drawn. -/
theorem TokensOk.lt {d : Db} {i : ℕ} {k : Token} {r : RefreshRow} (h : TokensOk d)
    (hv : (d.refreshTokens k).view i = some r) : k < d.nextToken := by
  rcases Nat.lt_or_ge k d.nextToken with hlt | hge
  · exact hlt
  · rw [h.1 k hge] at hv
    simp at hv

/-- The family UPDATE only ever sets `revoked_at`. -/
theorem VersionOk.revoke {c : Slot ℕ RefreshRow} {i : ℕ} {F : FamilyId} {at₀ : ℕ}
    {row : RefreshRow} (h : VersionOk c) (hv : c.view i = some row) :
    VersionOk (c.put i
      (some (if toRevoke F row then { row with revokedAt := some at₀ } else row))) := by
  refine h.put hv ?_ ?_
  · split <;> rfl
  · split
    · intro hn
      cases hn
    · exact id

/-- The order speaks of the rows and the next id only. -/
theorem TokensOk.of_eq {d d' : Db} (h : TokensOk d) (ht : d'.refreshTokens = d.refreshTokens)
    (hn : d'.nextToken = d.nextToken) : TokensOk d' := by
  unfold TokensOk
  rw [ht, hn]
  exact h

/-- A new row for a new token. -/
theorem TokensOk.insertPair {d : Db} {i : ℕ} {userId : UserId} {role : Role} {F : FamilyId}
    {at₀ : ℕ} (h : TokensOk d) : TokensOk (insertPair i d userId role F at₀).1 := by
  constructor
  · intro k hk
    have hlt : d.nextToken < k := hk
    change (d.refreshTokens.put i d.nextToken _) k = _
    rw [Table.put_ne (Nat.ne_of_gt hlt)]
    exact h.1 k (Nat.le_of_lt hlt)
  · intro k
    change VersionOk ((d.refreshTokens.put i d.nextToken _) k)
    rw [Table.put_apply]
    split
    · intro j r b _ hb
      rw [h.1 _ (Nat.le_refl _)] at hb
      cases hb
    · exact h.2 k

/-- Deleting rows that the call sees keeps the table in order. -/
theorem TokensOk.deleteAll {d : Db} {i : ℕ} {keys : List Token} (h : TokensOk d)
    (hseen : ∀ k ∈ keys, (d.refreshTokens k).view i ≠ none) :
    TokensOk { d with refreshTokens := d.refreshTokens.deleteAll i keys } := by
  constructor
  · intro k hk
    have hslot : d.refreshTokens k = Slot.settled none := h.1 k hk
    have hout : k ∉ keys := by
      intro hin
      apply hseen k hin
      rw [hslot]
      rfl
    change d.refreshTokens.deleteAll i keys k = _
    unfold Table.deleteAll
    rw [if_neg hout, hslot]
  · intro k
    change VersionOk (d.refreshTokens.deleteAll i keys k)
    unfold Table.deleteAll
    split
    · exact VersionOk.put_none
    · exact h.2 k

/-- A COMMIT keeps the table in order. -/
theorem TokensOk.commit {d : Db} (i : ℕ) (hd : TokensOk d) : TokensOk (d.commit i) := by
  constructor
  · intro k hk
    have hslot := hd.1 k hk
    rw [Db.commit_refreshTokens, Table.commit_apply, hslot]
    rfl
  · intro k
    exact (hd.2 k).commit i

/-- A ROLLBACK keeps the table in order. -/
theorem TokensOk.rollback {d : Db} (i : ℕ) (hd : TokensOk d) : TokensOk (d.rollback i) := by
  constructor
  · intro k hk
    have hslot := hd.1 k hk
    rw [Db.rollback_refreshTokens, Table.rollback_apply, hslot]
    rfl
  · intro k
    exact (hd.2 k).rollback i

/-! ## What a call knows -/

/-- The call has changed no row yet. -/
def Clean (i : ℕ) (d : Db) : Prop :=
  ∀ k, (d.refreshTokens k).view i = (d.refreshTokens k).base

/-- The call has inserted no row. -/
def NoInsert (i : ℕ) (d : Db) : Prop :=
  ∀ k, (d.refreshTokens k).base = none → (d.refreshTokens k).view i = none

/-- The rows the call has inserted are all in the family `F`. -/
def InsertsIn (i : ℕ) (d : Db) (F : FamilyId) : Prop :=
  ∀ k r, (d.refreshTokens k).base = none → (d.refreshTokens k).view i = some r →
    r.familyId = F

/-- The call holds the lock of a row of `F` that is live in the committed table. -/
def HoldsLive (i : ℕ) (d : Db) (F : FamilyId) : Prop :=
  ∃ k row, (d.refreshTokens k).Held i ∧ (d.refreshTokens k).base = some row ∧
    row.familyId = F ∧ row.revokedAt = none

/-- Every committed live row of `F` is among `rest`, or held by the call and revoked
in its own version. -/
def Covered (i : ℕ) (d : Db) (F : FamilyId) (rest : List Token) : Prop :=
  ∀ k row, (d.refreshTokens k).base = some row → row.familyId = F → row.revokedAt = none →
    k ∈ rest ∨ (d.refreshTokens k).Held i ∧
      ∀ r, (d.refreshTokens k).view i = some r → r.revokedAt ≠ none

/-- The local fact of each program point. -/
def Knows (i : ℕ) (d : Db) : Pc → Prop
  | .refreshRole tok row _ | .refreshMark tok row _ _ =>
      Clean i d ∧ (d.refreshTokens tok).Held i ∧ (d.refreshTokens tok).base = some row ∧
        row.revokedAt = none
  | .insertPair _ _ F _ => HoldsLive i d F ∧ NoInsert i d
  | .commit (.ok F _) => HoldsLive i d F ∧ InsertsIn i d F
  | .revokeRows _ F _ rest => Covered i d F rest ∧ NoInsert i d
  | .denyFamily _ F _ | .denyJti _ F _ | .sweep _ (.finishLogout F) _
  | .commit (.reuse F) | .commit (.loggedOut F) => Covered i d F [] ∧ NoInsert i d
  | .sweep _ (.insertPair _ _ _) _ => False
  | .idle | .refreshSelect _ _ | .revokeStart _ _ _ | .commit .reject | .done _ | .aborted =>
      Clean i d

theorem Clean.noInsert {i : ℕ} {d : Db} (h : Clean i d) : NoInsert i d := by
  intro k hk
  rw [h k, hk]

/-- Local facts speak of committed versions, own versions and own locks only. -/
theorem Knows.congr {i : ℕ} {d d' : Db} {pc : Pc}
    (hs : Table.Same i d.refreshTokens d'.refreshTokens) (h : Knows i d pc) :
    Knows i d' pc := by
  have hclean : Clean i d → Clean i d' := by
    intro hc k
    rw [hs.view, hs.base, hc k]
  have hno : NoInsert i d → NoInsert i d' := by
    intro hn k hk
    rw [hs.base] at hk
    rw [hs.view, hn k hk]
  have hins : ∀ F, InsertsIn i d F → InsertsIn i d' F := by
    intro F hF k r hk hr
    rw [hs.base] at hk
    rw [hs.view] at hr
    exact hF k r hk hr
  have hlive : ∀ F, HoldsLive i d F → HoldsLive i d' F := by
    rintro F ⟨k, row, hk, hb, hF⟩
    exact ⟨k, row, (hs.held k).mpr hk, (hs.base k).trans hb, hF⟩
  have hcov : ∀ F rest, Covered i d F rest → Covered i d' F rest := by
    intro F rest hF k row hb hf hr
    rw [hs.base] at hb
    rw [hs.held, hs.view]
    exact hF k row hb hf hr
  -- one case a program point: each knows of its own rows and of the committed ones
  cases pc with
  | refreshRole tok row at₀ =>
      exact ⟨hclean h.1, (hs.held tok).mpr h.2.1, (hs.base tok).trans h.2.2.1, h.2.2.2⟩
  | refreshMark tok row role at₀ =>
      exact ⟨hclean h.1, (hs.held tok).mpr h.2.1, (hs.base tok).trans h.2.2.1, h.2.2.2⟩
  | insertPair _ _ F _ => exact ⟨hlive F h.1, hno h.2⟩
  | revokeRows _ F _ rest => exact ⟨hcov F rest h.1, hno h.2⟩
  | denyFamily _ F _ => exact ⟨hcov F [] h.1, hno h.2⟩
  | denyJti _ F _ => exact ⟨hcov F [] h.1, hno h.2⟩
  | sweep _ after _ =>
      cases after with
      | insertPair _ _ _ => exact h
      | finishLogout F => exact ⟨hcov F [] h.1, hno h.2⟩
  | commit outcome =>
      cases outcome with
      | reject => exact hclean h
      | reuse F => exact ⟨hcov F [] h.1, hno h.2⟩
      | ok F pair => exact ⟨hlive F h.1, hins F h.2⟩
      | loggedOut F => exact ⟨hcov F [] h.1, hno h.2⟩
  | idle => exact hclean h
  | refreshSelect _ _ => exact hclean h
  | revokeStart _ _ _ => exact hclean h
  | done _ => exact hclean h
  | aborted => exact hclean h

/-! ## One statement -/

/-- A statement other than COMMIT: rows in order, the next local fact, and nothing
that the other calls can see. -/
def Advances (i : ℕ) (d d' : Db) (pc' : Pc) : Prop :=
  TokensOk d' ∧ Knows i d' pc' ∧ Table.Own i d.refreshTokens d'.refreshTokens

/-- A statement that leaves the rows alone advances the call, if the call still knows what its
next point asks for. -/
theorem Advances.of_tokens_eq {i : ℕ} {d d' : Db} {pc' : Pc} (hd : TokensOk d)
    (ht : d'.refreshTokens = d.refreshTokens) (hn : d'.nextToken = d.nextToken)
    (hk : Knows i d' pc') : Advances i d d' pc' := by
  refine ⟨hd.of_eq ht hn, hk, ?_⟩
  rw [ht]
  exact Table.Own.refl i _

/-- Locking a row that the call has not changed. -/
theorem Clean.lock {i : ℕ} {d : Db} {k : Token} {row : RefreshRow} (h : Clean i d)
    (hv : (d.refreshTokens k).view i = some row) : Clean i (d.putToken i k (some row)) := by
  intro k'
  rw [Db.putToken_refreshTokens, Table.view_put_iff, Table.put_base]
  split
  · next hk => rw [hk, ← hv, h k]
  · exact h k'

theorem Found.locks {i : ℕ} {d : Db} {tok : Token} {row : RefreshRow} (hd : TokensOk d)
    (hc : Clean i d) (hf : Found i d tok row) :
    TokensOk (d.putToken i tok (some row)) ∧ Clean i (d.putToken i tok (some row)) ∧
      Table.Own i d.refreshTokens (d.putToken i tok (some row)).refreshTokens :=
  ⟨hd.putToken (hd.lt hf.seen) ((hd.2 tok).put hf.seen rfl id), hc.lock hf.seen,
    Table.Own.put hf.free⟩

/-- The row of a rotation is live in its committed version. -/
theorem Found.knows {i : ℕ} {d : Db} {tok : Token} {row : RefreshRow} {at₀ : ℕ}
    (hc : Clean i d) (hf : Found i d tok row) (hlive : row.Live) :
    Knows i (d.putToken i tok (some row)) (.refreshRole tok row at₀) := by
  have hbase : (d.refreshTokens tok).base = some row := (hc tok).symm.trans hf.seen
  refine ⟨hc.lock hf.seen, ?_, ?_, hlive.2⟩
  · simp [Table.put_self]
  · simpa using hbase

/-- Once a call holds a live row of the family, changing its own version of that
row leaves it so. -/
theorem refreshMark_advances {i : ℕ} {d : Db} {tok : Token} {row : RefreshRow} {role : Role}
    {at₀ : ℕ} (hd : TokensOk d) (h : Knows i d (.refreshMark tok row role at₀)) :
    Advances i d (d.putToken i tok (some { row with usedAt := some at₀ }))
      (.insertPair row.userId role row.familyId at₀) := by
  obtain ⟨hc, hheld, hbase, hrev⟩ := h
  have hv : (d.refreshTokens tok).view i = some row := (hc tok).trans hbase
  refine ⟨hd.putToken (hd.lt hv) ((hd.2 tok).put hv rfl id), ⟨?_, ?_⟩, Table.Own.put hheld.free⟩
  · refine ⟨tok, row, ?_, ?_, rfl, hrev⟩
    · simp
    · simpa using hbase
  · intro k hk
    rw [Db.putToken_refreshTokens, Table.put_base] at hk
    have hne : k ≠ tok := by
      rintro rfl
      rw [hbase] at hk
      cases hk
    rw [Db.putToken_refreshTokens, Table.put_ne hne, hc k, hk]

/-- The INSERT adds one row, live and of the family in hand, and the call knows it. -/
theorem insertPair_advances {i : ℕ} {d : Db} {userId : UserId} {role : Role} {F : FamilyId}
    {at₀ : ℕ} (hd : TokensOk d) (h : Knows i d (.insertPair userId role F at₀)) :
    Advances i d (insertPair i d userId role F at₀).1 (insertPair i d userId role F at₀).2 := by
  obtain ⟨⟨k₀, row, hheld, hbase, hF, hrev⟩, hno⟩ := h
  have hslot : d.refreshTokens d.nextToken = Slot.settled none := hd.1 _ (Nat.le_refl _)
  have hfree : (d.refreshTokens d.nextToken).Free i := by
    intro j v hl
    rw [hslot] at hl
    simp at hl
  have hne : k₀ ≠ d.nextToken := by
    rintro rfl
    rw [hslot] at hbase
    simp at hbase
  refine ⟨hd.insertPair, ⟨?_, ?_⟩, Table.Own.put hfree⟩
  · refine ⟨k₀, row, ?_, ?_, hF, hrev⟩
    · change ((d.refreshTokens.put i d.nextToken _) k₀).Held i
      rw [Table.put_ne hne]
      exact hheld
    · change ((d.refreshTokens.put i d.nextToken _) k₀).base = _
      rw [Table.put_base]
      exact hbase
  · intro k r hk hr
    change ((d.refreshTokens.put i d.nextToken _) k).base = none at hk
    change ((d.refreshTokens.put i d.nextToken _) k).view i = some r at hr
    rw [Table.put_base] at hk
    rw [Table.view_put_iff] at hr
    split at hr
    · cases hr
      rfl
    · rw [hno k hk] at hr
      cases hr

/-- The snapshot of the family UPDATE covers the family. -/
theorem snapshot_covered {i : ℕ} {d : Db} (hd : TokensOk d) (hc : Clean i d) (F : FamilyId) :
    Covered i d F (snapshot i d F) := by
  intro k row hb hF hr
  left
  have hv : (d.refreshTokens k).view i = some row := (hc k).trans hb
  simp only [snapshot, List.mem_filter, List.mem_range]
  refine ⟨hd.lt hv, ?_⟩
  simp [hv, toRevoke, hF, hr]

/-- The family UPDATE takes row `k`: the rest of the family is still covered. -/
theorem visitRow_advances {i : ℕ} {d : Db} {why : RevokeFor} {F : FamilyId} {at₀ : ℕ}
    {k : Token} {rest : List Token} (hd : TokensOk d)
    (h : Knows i d (.revokeRows why F at₀ rest)) (hfree : (d.refreshTokens k).Free i) :
    Advances i d (visitRow i F at₀ k d) (.revokeRows why F at₀ (rest.erase k)) := by
  obtain ⟨hcov, hno⟩ := h
  unfold visitRow
  split
  · next hv =>
      refine Advances.of_tokens_eq hd rfl rfl ⟨?_, hno⟩
      intro k' row hb hF hr
      rcases hcov k' row hb hF hr with hin | hheld
      · by_cases hk : k' = k
        · -- the row is not visible although it is committed: the call deleted it
          subst hk
          right
          have hh : (d.refreshTokens k').Held i := by
            by_contra hn
            rw [Slot.view_of_not_held hn, hb] at hv
            cases hv
          refine ⟨hh, ?_⟩
          intro r hr'
          rw [hv] at hr'
          cases hr'
        · left
          exact (List.mem_erase_of_ne hk).mpr hin
      · exact Or.inr hheld
  -- the row is visible: it is locked now, and it is revoked or was not live
  · next row hv =>
      have hfam : ∀ b, (d.refreshTokens k).base = some b →
          row.familyId = b.familyId ∧ (row.revokedAt = none → b.revokedAt = none) :=
        fun b hb => (hd.2 k).view hv hb
      refine ⟨hd.putToken (hd.lt hv) ((hd.2 k).revoke hv), ⟨?_, ?_⟩, Table.Own.put hfree⟩
      · intro k' b hb hF hr
        rw [Db.putToken_refreshTokens, Table.put_base] at hb
        rw [Db.putToken_refreshTokens, Table.held_put_iff, Table.view_put_iff]
        by_cases hk : k' = k
        · -- the row just taken: live means the WHERE held and `revoked_at` is set
          subst hk
          right
          rw [if_pos rfl, if_pos rfl]
          refine ⟨rfl, ?_⟩
          intro r hr'
          rw [Option.some.injEq] at hr'
          rw [← hr']
          by_cases hrow : row.revokedAt = none
          · have hw : toRevoke F row = true := by
              simp [toRevoke, hrow, (hfam b hb).1.trans hF]
            rw [if_pos hw]
            exact Option.some_ne_none at₀
          · have hsome : row.revokedAt.isSome := Option.isSome_iff_ne_none.mpr hrow
            have hw : toRevoke F row = false := by
              simp [toRevoke, hsome]
            rw [hw]
            exact hrow
        · rw [if_neg hk, if_neg hk]
          rcases hcov k' b hb hF hr with hin | hheld
          · exact Or.inl ((List.mem_erase_of_ne hk).mpr hin)
          · exact Or.inr hheld
      · intro k' hb
        rw [Db.putToken_refreshTokens, Table.put_base] at hb
        rw [Db.putToken_refreshTokens, Table.view_put_iff]
        split
        · next hk =>
            rw [hk] at hb
            rw [hno k hb] at hv
            cases hv
        · exact hno k' hb

/-- A sweep after a logout deletes rows and keeps the family covered. -/
theorem deleteAll_advances {i : ℕ} {d d' : Db} {F : FamilyId} {keys : List Token}
    (hd : TokensOk d) (hcov : Covered i d F []) (hno : NoInsert i d)
    (hfree : ∀ k ∈ keys, (d.refreshTokens k).Free i)
    (hseen : ∀ k ∈ keys, (d.refreshTokens k).view i ≠ none)
    (ht : d'.refreshTokens = d.refreshTokens.deleteAll i keys)
    (hn : d'.nextToken = d.nextToken) :
    TokensOk d' ∧ (Covered i d' F [] ∧ NoInsert i d') ∧
      Table.Own i d.refreshTokens d'.refreshTokens := by
  have happ : ∀ k, d'.refreshTokens k =
      if k ∈ keys then (d.refreshTokens k).put i none else d.refreshTokens k := by
    intro k
    rw [ht]
    rfl
  refine ⟨(hd.deleteAll hseen).of_eq ht hn, ⟨?_, ?_⟩, ?_⟩
  · intro k row hb hF hr
    rw [happ] at hb ⊢
    split at hb
    · next hin =>
        rw [if_pos hin]
        right
        refine ⟨Slot.held_put, ?_⟩
        intro r hv
        simp at hv
    · next hout =>
        rw [if_neg hout]
        exact hcov k row hb hF hr
  · intro k hb
    rw [happ] at hb ⊢
    split at hb
    · next hin =>
        rw [if_pos hin]
        simp
    · next hout =>
        rw [if_neg hout]
        exact hno k hb
  · rw [ht]
    exact Table.Own.deleteAll hfree

/-- After a ROLLBACK the call holds nothing. -/
theorem rollback_advances {i : ℕ} {d : Db} (hd : TokensOk d) :
    Advances i d (d.rollback i) .aborted := by
  refine ⟨hd.rollback i, ?_, Table.Own.rollback i _⟩
  intro k
  rw [Db.rollback_refreshTokens, Table.rollback_apply, Slot.view_of_not_held Slot.not_held_rollback]

/-- One statement of a refresh or a logout, other than COMMIT. -/
theorem stmt_advances {i : ℕ} {d d' : Db} {pc pc' : Pc} {a : Stmt} (hd : TokensOk d)
    (hk : Knows i d pc) (hl : ∀ u, a ≠ .login u) (h : stmt i d pc a = some (d', pc')) :
    Advances i d d' pc' ∨ ∃ o, pc = .commit o ∧ pc' = .done o ∧ d' = d.commit i := by
  have same : ∀ q, Knows i d q → Advances i d d q := fun q => Advances.of_tokens_eq hd rfl rfl
  -- the COMMIT is left to its own lemma; a row that was found is locked and nothing else
  cases stmt_branch h with
  | commit => exact Or.inr ⟨_, rfl, rfl, rfl⟩
  | abort => exact Or.inl (rollback_advances hd)
  | refresh => exact Or.inl (same _ hk)
  | stranger _ => exact absurd rfl (hl _)
  | login _ => exact absurd rfl (hl _)
  | logout => exact Or.inl (same _ hk)
  | missing _ => exact Or.inl (same _ hk)
  | revoked hf _ => exact Or.inl (hf.locks hd hk)
  | reused hf _ _ => exact Or.inl (hf.locks hd hk)
  | expired hf _ _ => exact Or.inl (hf.locks hd hk)
  | found hf hlive _ =>
      obtain ⟨hok, -, hown⟩ := hf.locks hd hk
      exact Or.inl ⟨hok, hf.knows hk hlive, hown⟩
  | roleless _ => exact Or.inl (same _ hk.1)
  | role _ => exact Or.inl (same _ hk)
  | mark => exact Or.inl (refreshMark_advances hd hk)
  | insert => exact Or.inl (insertPair_advances hd hk)
  | start => exact Or.inl (same _ ⟨snapshot_covered hd hk _, Clean.noInsert hk⟩)
  | visit _ hfree => exact Or.inl (visitRow_advances hd hk hfree)
  | visited => exact Or.inl (same _ hk)
  | denyReused _ => exact Or.inl (Advances.of_tokens_eq hd rfl rfl hk)
  | denyFamily _ => exact Or.inl (Advances.of_tokens_eq hd rfl rfl hk)
  | denyJti _ => exact Or.inl (Advances.of_tokens_eq hd rfl rfl hk)
  | @sweptTokens _ after _ _ hs =>
      cases after with
      | insertPair _ _ _ => exact hk.elim
      | finishLogout F =>
          exact Or.inl (deleteAll_advances hd hk.1 hk.2 (fun k hin => (hs.2 k hin).1)
            (fun k hin => hs.seen hin) rfl rfl)
  | @sweptJtis _ after _ _ _ =>
      cases after with
      | insertPair _ _ _ => exact hk.elim
      | finishLogout F => exact Or.inl (Advances.of_tokens_eq hd rfl rfl hk)
  | @sweptFamilies _ after _ _ _ =>
      cases after with
      | insertPair _ _ _ => exact hk.elim
      | finishLogout F => exact Or.inl (Advances.of_tokens_eq hd rfl rfl hk)
  | logged => exact hk.elim
  | finish => exact Or.inl (same _ hk)

/-! ## COMMIT -/

/-- Only a rotation about to commit has inserted anything. -/
theorem Knows.inserted {i : ℕ} {d : Db} {pc : Pc} {k : Token} {r : RefreshRow}
    (h : Knows i d pc) (hb : (d.refreshTokens k).base = none)
    (hv : (d.refreshTokens k).view i = some r) :
    ∃ pair, pc = .commit (.ok r.familyId pair) := by
  have hclean : ¬ Clean i d := by
    intro hc
    rw [hc k, hb] at hv
    cases hv
  have hno : ¬ NoInsert i d := by
    intro hn
    rw [hn k hb] at hv
    cases hv
  -- an insert of its own is something only a rotation has, and it is at its COMMIT
  cases pc with
  | refreshRole _ _ _ => exact absurd h.1 hclean
  | refreshMark _ _ _ _ => exact absurd h.1 hclean
  | insertPair _ _ _ _ => exact absurd h.2 hno
  | revokeRows _ _ _ _ => exact absurd h.2 hno
  | denyFamily _ _ _ => exact absurd h.2 hno
  | denyJti _ _ _ => exact absurd h.2 hno
  | sweep _ after _ =>
      cases after with
      | insertPair _ _ _ => exact h.elim
      | finishLogout _ => exact absurd h.2 hno
  | commit o =>
      cases o with
      | reject => exact absurd h hclean
      | ok F pair => exact ⟨pair, by rw [h.2 k r hb hv]⟩
      | reuse _ => exact absurd h.2 hno
      | loggedOut _ => exact absurd h.2 hno
  | idle => exact absurd h hclean
  | refreshSelect _ _ => exact absurd h hclean
  | revokeStart _ _ _ => exact absurd h hclean
  | done _ => exact absurd h hclean
  | aborted => exact absurd h hclean

theorem commit_clean (i : ℕ) (d : Db) : Clean i (d.commit i) := by
  intro k
  rw [Db.commit_refreshTokens, Table.commit_apply, Slot.view_of_not_held Slot.not_held_commit]

/-- The COMMIT of `i` leaves a revocation of `F` covered, unless `i` commits a
rotation of `F`. -/
theorem Covered.commit {i j : ℕ} {d : Db} {o : Outcome} {F : FamilyId} {rest : List Token}
    (hd : TokensOk d) (hi : Knows i d (.commit o)) (hij : j ≠ i)
    (hrace : ∀ pair, o ≠ .ok F pair) (h : Covered j d F rest) :
    Covered j (d.commit i) F rest := by
  intro k row hb hF hr
  rw [Db.commit_refreshTokens, Table.commit_apply] at hb ⊢
  by_cases hheld : (d.refreshTokens k).Held i
  · rw [Slot.commit_of_held hheld, Slot.settled_base] at hb
    cases hbase : (d.refreshTokens k).base with
    | none =>
        obtain ⟨pair, ho⟩ := hi.inserted hbase hb
        rw [hF] at ho
        cases ho
        exact absurd rfl (hrace pair)
    | some b =>
        have hver := (hd.2 k).view hb hbase
        rcases h k b hbase (hver.1 ▸ hF) (hver.2 hr) with hin | hj
        · exact Or.inl hin
        · exact absurd (hj.1.unique hheld) hij
  · rw [Slot.commit_of_not_held hheld] at hb ⊢
    exact h k row hb hF hr

/-- Another call's COMMIT leaves a held live row held and live. -/
theorem HoldsLive.commit {i j : ℕ} {d : Db} {F : FamilyId} (hij : j ≠ i)
    (h : HoldsLive j d F) : HoldsLive j (d.commit i) F := by
  obtain ⟨k, row, hheld, hb, hF, hr⟩ := h
  refine ⟨k, row, ?_, ?_, hF, hr⟩
  · rw [Db.commit_refreshTokens, Table.commit_apply, hheld.commit_other hij.symm]
    exact hheld
  · rw [Db.commit_refreshTokens, Table.commit_apply, hheld.commit_other hij.symm]
    exact hb

/-- Own versions of `j` after the COMMIT of `i`. -/
theorem commit_view {i j : ℕ} {d : Db} (hij : j ≠ i) (k : Token) :
    ((d.refreshTokens k).Held j ∧ (d.commit i).refreshTokens k = d.refreshTokens k) ∨
    ((d.commit i).refreshTokens k).view j = ((d.commit i).refreshTokens k).base := by
  rw [Db.commit_refreshTokens, Table.commit_apply]
  by_cases hj : (d.refreshTokens k).Held j
  · exact Or.inl ⟨hj, hj.commit_other hij.symm⟩
  · right
    apply Slot.view_of_not_held
    by_cases hi : (d.refreshTokens k).Held i
    · rw [Slot.commit_of_held hi]
      exact Slot.not_held_settled
    · rwa [Slot.commit_of_not_held hi]

/-- Another call's COMMIT makes no call hold a row. -/
theorem Clean.commit {i j : ℕ} {d : Db} (hij : j ≠ i) (h : Clean j d) :
    Clean j (d.commit i) := by
  intro k
  rcases commit_view hij k with ⟨-, heq⟩ | hv
  · rw [heq, h k]
  · exact hv

/-- Another call's COMMIT makes no call insert a row. -/
theorem NoInsert.commit {i j : ℕ} {d : Db} (hij : j ≠ i) (h : NoInsert j d) :
    NoInsert j (d.commit i) := by
  intro k hb
  rcases commit_view hij k with ⟨-, heq⟩ | hv
  · rw [heq] at hb ⊢
    exact h k hb
  · rw [hv, hb]

/-- Another call's COMMIT leaves what a call inserts in its family. -/
theorem InsertsIn.commit {i j : ℕ} {d : Db} {F : FamilyId} (hij : j ≠ i)
    (h : InsertsIn j d F) : InsertsIn j (d.commit i) F := by
  intro k r hb hr
  rcases commit_view hij k with ⟨-, heq⟩ | hv
  · rw [heq] at hb hr
    exact h k r hb hr
  · rw [hv, hb] at hr
    cases hr

/-- What a call knows survives another call's COMMIT, unless that is a rotation in the family it
is revoking. -/
theorem Knows.commit {i j : ℕ} {d : Db} {o : Outcome} {pc : Pc} (hd : TokensOk d)
    (hi : Knows i d (.commit o)) (hij : j ≠ i)
    (hrace : ∀ F pair, o = .ok F pair → ¬ pc.Revoking F) (h : Knows j d pc) :
    Knows j (d.commit i) pc := by
  -- a rotation that commits in between is what `NoRace` excludes
  have hcov : ∀ F rest, pc.Revoking F → Covered j d F rest → Covered j (d.commit i) F rest :=
    fun F rest hF hc => hc.commit hd hi hij fun pair ho => hrace F pair ho hF
  have hrow : ∀ tok row, Clean j d ∧ (d.refreshTokens tok).Held j ∧
      (d.refreshTokens tok).base = some row ∧ row.revokedAt = none →
      Clean j (d.commit i) ∧ ((d.commit i).refreshTokens tok).Held j ∧
        ((d.commit i).refreshTokens tok).base = some row ∧ row.revokedAt = none := by
    rintro tok row ⟨hc, hheld, hb, hr⟩
    have heq : (d.commit i).refreshTokens tok = d.refreshTokens tok :=
      hheld.commit_other hij.symm
    rw [heq]
    exact ⟨hc.commit hij, hheld, hb, hr⟩
  cases pc with
  | refreshRole tok row at₀ => exact hrow tok row h
  | refreshMark tok row role at₀ => exact hrow tok row h
  | insertPair _ _ F _ => exact ⟨h.1.commit hij, h.2.commit hij⟩
  | revokeRows _ F _ rest => exact ⟨hcov F rest rfl h.1, h.2.commit hij⟩
  | denyFamily _ F _ => exact ⟨hcov F [] rfl h.1, h.2.commit hij⟩
  | denyJti _ F _ => exact ⟨hcov F [] rfl h.1, h.2.commit hij⟩
  | sweep _ after _ =>
      cases after with
      | insertPair _ _ _ => exact h
      | finishLogout F => exact ⟨hcov F [] rfl h.1, h.2.commit hij⟩
  | commit outcome =>
      cases outcome with
      | reject => exact Clean.commit hij h
      | reuse F => exact ⟨hcov F [] rfl h.1, h.2.commit hij⟩
      | ok F pair => exact ⟨h.1.commit hij, h.2.commit hij⟩
      | loggedOut F => exact ⟨hcov F [] rfl h.1, h.2.commit hij⟩
  | idle => exact Clean.commit hij h
  | refreshSelect _ _ => exact Clean.commit hij h
  | revokeStart _ _ _ => exact Clean.commit hij h
  | done _ => exact Clean.commit hij h
  | aborted => exact Clean.commit hij h

/-! ## While revocations are open -/

/-- At the start no call holds a row. -/
theorem knows_init {s : St} (h : machine.Init s) :
    Procs.Holds TokensOk Knows s := by
  refine ⟨TokensOk.init h.1, ?_⟩
  intro i
  have hidle : s.proc i = .idle := h.2 i
  rw [hidle]
  intro k
  have hl := h.1.1 k
  unfold Slot.view
  rw [hl]

theorem tick_tokens {d d' : Db} {dt : ℕ} (h : tick d dt = some d') :
    d'.refreshTokens = d.refreshTokens ∧ d'.nextToken = d.nextToken := by
  cases h
  exact ⟨rfl, rfl⟩

/-- Along a run without the race every call knows what its program point says. -/
theorem knows_run {s t : St} {as : List Label} (hr : machine.Run NoRace s as t)
    (h : Procs.Holds TokensOk Knows s) : Procs.Holds TokensOk Knows t := by
  refine Procs.noninterference NoRace TokensOk Knows ?_ ?_ hr h
  · intro s i a d p hok hs hst
    have hlogin : ∀ u, a ≠ .login u := by
      rintro u rfl
      exact hok.1
    rcases stmt_advances hs.1 (hs.2 i) hlogin hst with hadv | ⟨o, hpc, rfl, rfl⟩
    · refine ⟨hadv.1, hadv.2.1, ?_⟩
      intro j hj
      exact (hs.2 j).congr (hadv.2.2.same hj)
    · have hi := hs.2 i
      rw [hpc] at hi
      have ha : a = .run := by
        rw [hpc] at hst
        cases a with
        | run => rfl
        | _ => simp [procs, stmt] at hst
      refine ⟨hs.1.commit i, commit_clean i _, ?_⟩
      intro j hj
      refine Knows.commit hs.1 hi hj ?_ (hs.2 j)
      rintro F pair rfl
      exact hok.2 i F pair (by rw [ha]) hpc j hj
  · intro s e d _ hs hd
    obtain ⟨ht, hn⟩ := tick_tokens hd
    refine ⟨hs.1.of_eq ht hn, ?_⟩
    intro j
    refine (hs.2 j).congr ?_
    rw [ht]
    exact (Table.Own.refl (j + 1) _).same (by omega)

/-! ## After the revocation -/

/-- Every version of every row of `F` is revoked. -/
def DeadTokens (F : FamilyId) (d : Db) : Prop :=
  ∀ k, (∀ b, (d.refreshTokens k).base = some b → b.familyId = F → b.revokedAt ≠ none) ∧
    ∀ j r, (d.refreshTokens k).lock = some (j, some r) → r.familyId = F → r.revokedAt ≠ none

/-- The call is not rotating a token of `F`. -/
def Pc.NotRotating (F : FamilyId) : Pc → Prop
  | .refreshRole _ row _ | .refreshMark _ row _ _ => row.familyId ≠ F
  | .insertPair _ _ f _ | .sweep _ (.insertPair _ _ f) _ | .commit (.ok f _) => f ≠ F
  | _ => True

/-- A row of a dead family is revoked in every version a call can see. -/
theorem DeadTokens.view {F : FamilyId} {d : Db} {i : ℕ} {k : Token} {r : RefreshRow}
    (h : DeadTokens F d) (hv : (d.refreshTokens k).view i = some r) (hF : r.familyId = F) :
    r.revokedAt ≠ none := by
  by_cases hh : (d.refreshTokens k).Held i
  · have hl := hh.lock_eq
    rw [hv] at hl
    exact (h k).2 i r hl hF
  · rw [Slot.view_of_not_held hh] at hv
    exact (h k).1 r hv hF

/-- A write keeps a family dead if it writes no live row of it. -/
theorem DeadTokens.put {F : FamilyId} {d : Db} {i : ℕ} {k : Token} {v : Option RefreshRow}
    (h : DeadTokens F d) (hv : ∀ r, v = some r → r.familyId = F → r.revokedAt ≠ none) :
    DeadTokens F (d.putToken i k v) := by
  intro k'
  rw [Db.putToken_refreshTokens, Table.put_base, Table.put_apply]
  refine ⟨(h k').1, ?_⟩
  split
  · intro j r hl hF
    simp only [Slot.put_lock, Option.some.injEq, Prod.mk.injEq] at hl
    exact hv r hl.2 hF
  · exact (h k').2

/-- Ending a transaction keeps a family dead: the row becomes its old version or its draft, and
both are dead. -/
theorem DeadTokens.settled {F : FamilyId} {d d' : Db} (i : ℕ) (h : DeadTokens F d)
    (hslot : ∀ k, d'.refreshTokens k = d.refreshTokens k ∨
      ∃ v, d'.refreshTokens k = Slot.settled v ∧
        (v = (d.refreshTokens k).base ∨ v = (d.refreshTokens k).view i)) :
    DeadTokens F d' := by
  intro k
  rcases hslot k with heq | ⟨v, heq, hv⟩
  · rw [heq]
    exact h k
  · rw [heq]
    refine ⟨?_, ?_⟩
    · intro b hb hF
      have hb' : v = some b := hb
      rcases hv with hv | hv
      · exact (h k).1 b (hv ▸ hb') hF
      · exact h.view (i := i) (hv ▸ hb') hF
    · intro j r hl
      simp at hl

/-- A COMMIT keeps a family dead. -/
theorem DeadTokens.commit {F : FamilyId} {d : Db} (i : ℕ) (h : DeadTokens F d) :
    DeadTokens F (d.commit i) := by
  refine h.settled i ?_
  intro k
  rw [Db.commit_refreshTokens, Table.commit_apply]
  by_cases hh : (d.refreshTokens k).Held i
  · exact Or.inr ⟨_, Slot.commit_of_held hh, Or.inr rfl⟩
  · exact Or.inl (Slot.commit_of_not_held hh)

/-- A ROLLBACK keeps a family dead. -/
theorem DeadTokens.rollback {F : FamilyId} {d : Db} (i : ℕ) (h : DeadTokens F d) :
    DeadTokens F (d.rollback i) := by
  refine h.settled i ?_
  intro k
  rw [Db.rollback_refreshTokens, Table.rollback_apply]
  by_cases hh : (d.refreshTokens k).Held i
  · exact Or.inr ⟨_, Slot.rollback_of_held hh, Or.inl rfl⟩
  · exact Or.inl (Slot.rollback_of_not_held hh)

/-- Whether a family is dead is a matter of its rows only. -/
theorem DeadTokens.of_tokens_eq {F : FamilyId} {d d' : Db} (h : DeadTokens F d)
    (ht : d'.refreshTokens = d.refreshTokens) : DeadTokens F d' := by
  intro k
  rw [ht]
  exact h k

/-- Deleting rows keeps a family dead. -/
theorem DeadTokens.deleteAll {F : FamilyId} {d d' : Db} {i : ℕ} {keys : List Token}
    (h : DeadTokens F d) (ht : d'.refreshTokens = d.refreshTokens.deleteAll i keys) :
    DeadTokens F d' := by
  intro k
  rw [ht]
  unfold Table.deleteAll
  split
  · refine ⟨(h k).1, ?_⟩
    intro j r hl
    simp at hl
  · exact h k

/-- The family UPDATE takes row `k`. -/
theorem DeadTokens.visitRow {F f : FamilyId} {d : Db} {i at₀ : ℕ} {k : Token}
    (h : DeadTokens F d) : DeadTokens F (visitRow i f at₀ k d) := by
  unfold Auth.visitRow
  split
  · exact h
  · next row hv =>
      refine h.put ?_
      rintro r ⟨⟩
      split
      · intro _
        exact Option.some_ne_none at₀
      · exact h.view hv

/-- No statement brings the family back to life. -/
theorem dead_stmt {F : FamilyId} {i : ℕ} {d d' : Db} {pc pc' : Pc} {a : Stmt}
    (hl : ∀ u, a ≠ .login u) (h : stmt i d pc a = some (d', pc')) (hd : DeadTokens F d)
    (hpc : pc.NotRotating F) :
    DeadTokens F d' ∧ pc'.NotRotating F ∧ ∀ pair, pc' ≠ .done (.ok F pair) := by
  have hlock : ∀ tok row, Found i d tok row → DeadTokens F (d.putToken i tok (some row)) := by
    intro tok row hf
    refine hd.put ?_
    rintro r ⟨⟩
    exact hd.view hf.seen
  -- a row of the family is revoked, so no refresh gets past the checks with it
  cases stmt_branch h with
  | stranger _ => exact absurd rfl (hl _)
  | login _ => exact absurd rfl (hl _)
  | revoked hf _ => exact ⟨hlock _ _ hf, trivial, fun _ => by simp⟩
  | reused hf _ _ => exact ⟨hlock _ _ hf, trivial, fun _ => by simp⟩
  | expired hf _ _ => exact ⟨hlock _ _ hf, trivial, fun _ => by simp⟩
  | found hf hlive _ =>
      exact ⟨hlock _ _ hf, fun hF => hd.view hf.seen hF hlive.2, fun _ => by simp⟩
  | role _ => exact ⟨hd, hpc, fun _ => by simp⟩
  | mark =>
      refine ⟨hd.put ?_, hpc, fun _ => by simp⟩
      rintro r ⟨⟩ hF
      exact absurd hF hpc
  | @insert u role f at₀ =>
      refine ⟨(hd.put (i := i) (k := d.nextToken) (v := some
        { familyId := f, userId := u, expiresAt := at₀ + secs refreshTtlSec, usedAt := none,
          revokedAt := none }) ?_).of_tokens_eq rfl, hpc, fun _ => by simp [insertPair]⟩
      rintro r ⟨⟩ hF
      exact absurd hF hpc
  | visit _ _ => exact ⟨hd.visitRow, trivial, fun _ => by simp⟩
  | denyReused _ => exact ⟨hd.of_tokens_eq rfl, trivial, fun _ => by simp⟩
  | denyFamily _ => exact ⟨hd.of_tokens_eq rfl, trivial, fun _ => by simp⟩
  | denyJti _ => exact ⟨hd.of_tokens_eq rfl, trivial, fun _ => by simp⟩
  | @sweptTokens _ after _ _ _ =>
      refine ⟨hd.deleteAll rfl, ?_, fun _ => by simp⟩
      cases after with
      | insertPair _ _ _ => exact hpc
      | finishLogout _ => trivial
  | @sweptJtis _ after _ _ _ =>
      refine ⟨hd.of_tokens_eq rfl, ?_, fun _ => by simp⟩
      cases after with
      | insertPair _ _ _ => exact hpc
      | finishLogout _ => trivial
  | @sweptFamilies _ after _ _ _ =>
      refine ⟨hd.of_tokens_eq rfl, ?_, fun _ => by simp⟩
      cases after with
      | insertPair _ _ _ => exact hpc
      | finishLogout _ => trivial
  | logged => exact ⟨hd, hpc, fun _ => by simp⟩
  | commit =>
      refine ⟨hd.commit i, trivial, ?_⟩
      rintro pair heq
      cases heq
      exact hpc rfl
  | abort => exact ⟨hd.rollback i, trivial, fun _ => by simp⟩
  -- nothing is written, and no row is in hand
  | _ => exact ⟨hd, trivial, fun _ => by simp⟩

/-- Once a family is dead it stays dead, and no refresh of it succeeds, in any run of refreshes
and logouts. -/
theorem dead_run {F : FamilyId} (fresh : ℕ → Prop) {s t : St} {as : List Label}
    (hr : machine.Run RefreshesAndLogouts s as t) (hd : DeadTokens F s.shared)
    (hpc : ∀ j, (s.proc j).NotRotating F)
    (hfresh : ∀ j, fresh j → ∀ pair, s.proc j ≠ .done (.ok F pair)) :
    DeadTokens F t.shared ∧ (∀ j, (t.proc j).NotRotating F) ∧
      ∀ j, fresh j → ∀ pair, t.proc j ≠ .done (.ok F pair) := by
  have h : Procs.Holds (DeadTokens F)
      (fun j (_ : Db) pc => pc.NotRotating F ∧ (fresh j → ∀ pair, pc ≠ .done (.ok F pair)))
      t := by
    refine Procs.noninterference RefreshesAndLogouts _ _ ?_ ?_ hr
      ⟨hd, fun j => ⟨hpc j, hfresh j⟩⟩
    · intro s i a d p hok hs hst
      have hlogin : ∀ u, a ≠ .login u := by
        rintro u rfl
        exact hok
      obtain ⟨hdead, hrot, hdone⟩ := dead_stmt hlogin hst hs.1 (hs.2 i).1
      exact ⟨hdead, ⟨hrot, fun _ => hdone⟩, fun j _ => hs.2 j⟩
    · intro s e d _ hs he
      exact ⟨hs.1.of_tokens_eq (tick_tokens he).1, fun j => hs.2 j⟩
  exact ⟨h.1, fun j => (h.2 j).1, fun j => (h.2 j).2⟩

/-! ## The COMMIT of a revocation -/

/-- A rotation of `F` and a revocation of `F` that is through with its UPDATE cannot
both be open: they would hold the same row. -/
theorem Covered.no_rotation {i j : ℕ} {d : Db} {F : FamilyId} (h : Covered i d F [])
    (hj : HoldsLive j d F) : j = i := by
  obtain ⟨k, row, hheld, hb, hF, hr⟩ := hj
  rcases h k row hb hF hr with hin | hi
  · cases hin
  · exact hheld.unique hi.1

/-- While a call has all live rows of a family, no other call is rotating in it. -/
theorem Covered.notRotating {i j : ℕ} {d : Db} {F : FamilyId} {pc : Pc}
    (h : Covered i d F []) (hij : j ≠ i) (hk : Knows j d pc) : pc.NotRotating F := by
  have hnone : ¬ HoldsLive j d F := fun hj => hij (h.no_rotation hj)
  have hrow : ∀ tok row, Clean j d ∧ (d.refreshTokens tok).Held j ∧
      (d.refreshTokens tok).base = some row ∧ row.revokedAt = none → row.familyId ≠ F := by
    rintro tok row ⟨-, hheld, hb, hr⟩ hF
    exact hnone ⟨tok, row, hheld, hb, hF, hr⟩
  -- a rotation holds a live row of its family, and all of those are taken
  cases pc with
  | refreshRole tok row _ => exact hrow tok row hk
  | refreshMark tok row _ _ => exact hrow tok row hk
  | insertPair _ _ f _ =>
      rintro rfl
      exact hnone hk.1
  | sweep _ after _ =>
      cases after with
      | insertPair _ _ _ => exact hk.elim
      | finishLogout _ => trivial
  | commit o =>
      cases o with
      | ok f _ =>
          rintro rfl
          exact hnone hk.1
      | reject => trivial
      | reuse _ => trivial
      | loggedOut _ => trivial
  | idle => trivial
  | refreshSelect _ _ => trivial
  | revokeStart _ _ _ => trivial
  | revokeRows _ _ _ _ => trivial
  | denyFamily _ _ _ => trivial
  | denyJti _ _ _ => trivial
  | done _ => trivial
  | aborted => trivial

/-- The COMMIT of a covered revocation leaves no live version of the family. -/
theorem Covered.dead {i : ℕ} {s : St} {F : FamilyId}
    (hs : Procs.Holds TokensOk Knows s) (hcov : Covered i s.shared F [])
    (hno : NoInsert i s.shared) : DeadTokens F (s.shared.commit i) := by
  have hver := hs.1.2
  intro k
  rw [Db.commit_refreshTokens, Table.commit_apply]
  -- a row of the call's own becomes its draft, and any other stays as it is
  by_cases hheld : (s.shared.refreshTokens k).Held i
  · rw [Slot.commit_of_held hheld]
    refine ⟨?_, ?_⟩
    · intro b hv hF hr
      rw [Slot.settled_base] at hv
      cases hb : (s.shared.refreshTokens k).base with
      | none =>
          rw [hno k hb] at hv
          cases hv
      | some b₀ =>
          have hver := (hver k).view hv hb
          rcases hcov k b₀ hb (hver.1 ▸ hF) (hver.2 hr) with hin | hi
          · cases hin
          · exact hi.2 b hv hr
    · intro j r hl
      simp at hl
  · rw [Slot.commit_of_not_held hheld]
    have hbase : ∀ b, (s.shared.refreshTokens k).base = some b → b.familyId = F →
        b.revokedAt ≠ none := by
      intro b hb hF hr
      rcases hcov k b hb hF hr with hin | hi
      · cases hin
      · exact hheld hi.1
    refine ⟨hbase, ?_⟩
    intro j r hl hF hr
    have hj : (s.shared.refreshTokens k).Held j := ⟨some r, hl⟩
    have hij : j ≠ i := by
      rintro rfl
      exact hheld hj
    have hv : (s.shared.refreshTokens k).view j = some r := by
      have hlock := hj.lock_eq
      rw [hl] at hlock
      simpa using hlock.symm
    cases hb : (s.shared.refreshTokens k).base with
    | none =>
        -- an uncommitted insert is a rotation, and that holds a live row
        obtain ⟨pair, hpc⟩ := (hs.2 j).inserted hb hv
        have hk := hs.2 j
        rw [hpc, hF] at hk
        exact hij (hcov.no_rotation hk.1)
    | some b =>
        have hrb := (hver k).view hv hb
        exact hbase b hb (hrb.1 ▸ hF) (hrb.2 hr)

theorem RefreshesAndLogouts.of_noRace {s t : St} {as : List Label}
    (h : machine.Run NoRace s as t) : machine.Run RefreshesAndLogouts s as t :=
  h.mono fun _ _ hok => hok.1

/-- Without a rotation that commits behind a revocation's back, revoking a family is
final. -/
theorem revocation_final (F : FamilyId) (s₀ : St) (hinit : machine.Init s₀) :
    RevocationFinal NoRace F s₀ := by
  intro s₁ s₁' s₂ as bs i has hpc _ hstep hbs _
  have hs : Procs.Holds TokensOk Knows s₁ := knows_run has (knows_init hinit)
  have hk := hs.2 i
  have hcov : Covered i s₁.shared F [] ∧ NoInsert i s₁.shared := by
    rcases hpc with hpc | hpc <;> rw [hpc] at hk <;> exact hk
  obtain ⟨d, p, hst, rfl⟩ := Procs.next_call hstep
  have hdp : d = s₁.shared.commit i ∧ ∃ o, p = .done o ∧ ∀ pair, o ≠ .ok F pair := by
    rcases hpc with hpc | hpc <;> rw [hpc] at hst <;> cases hst
    · exact ⟨rfl, _, rfl, by simp⟩
    · exact ⟨rfl, _, rfl, by simp⟩
  obtain ⟨rfl, o, rfl, -⟩ := hdp
  have hdead : DeadTokens F (s₁.shared.commit i) := hcov.1.dead hs hcov.2
  have hrot : ∀ j, (Function.update s₁.proc i (.done o) j).NotRotating F := by
    refine Procs.forall_update (Q := fun _ pc => Pc.NotRotating F pc) trivial ?_
    intro j hj
    exact hcov.1.notRotating hj (hs.2 j)
  obtain ⟨hdead₂, hrot₂, -⟩ := dead_run (fun _ => False) (RefreshesAndLogouts.of_noRace hbs)
    hdead hrot (fun _ hf => hf.elim)
  refine ⟨fun k row hb hF => (hdead₂ k).1 row hb hF, ?_⟩
  intro cs s₃ hcs j pair hj
  have h₃ := dead_run (fun j => s₂.proc j = .idle) (RefreshesAndLogouts.of_noRace hcs)
    hdead₂ hrot₂ (by
      intro j hidle pair
      rw [hidle]
      simp)
  exact h₃.2.2 j hj pair

/-! ## A logout that loses the race

One family with one live token. The logout starts its UPDATE while a refresh of that
token has inserted the next one and not committed.
-/

def raceDb : Db where
  refreshTokens := Table.ofBase fun k =>
    if k = 0 then
      some { familyId := 0, userId := 0, expiresAt := secs refreshTtlSec, usedAt := none,
             revokedAt := none }
    else none
  accessDenylist := Table.ofBase fun _ => none
  revokedFamilies := Table.ofBase fun _ => none
  users := fun _ => some "buyer"
  now := 0
  nextToken := 1
  nextFamily := 1
  nextJti := 1

def raceStart : St := ⟨raceDb, fun _ => .idle⟩

/-- The concrete start is a proper one: one user, one family with one live row. -/
theorem raceStart_init : machine.Init raceStart := by
  refine ⟨⟨fun _ => rfl, fun _ => rfl, fun _ => rfl, ?_⟩, fun _ => rfl⟩
  intro k hk
  have hne : k ≠ 0 := Nat.ne_of_gt hk
  simp [raceStart, raceDb, hne]

/-- Call 1 refreshes token 0, up to its COMMIT. -/
def raceRefresh : List Label :=
  [.call 1 (.refresh 0), .call 1 .run, .call 1 .run, .call 1 .run, .call 1 .run]

/-- The rest of the logout of call 2, once its UPDATE has its snapshot. -/
def raceRevoke : List Label :=
  [.call 2 (.visit 0), .call 2 .run, .call 2 .run, .call 2 .run, .call 2 (.sweep []),
    .call 2 (.sweep []), .call 2 (.sweep []), .call 2 .run]

def raceLogout : List Label := [.call 2 (.logout (sign 0 0 0 .buyer 0)), .call 2 .run]

/-- Refresh and logout calls. -/
def isRefreshOrLogout (_s : St) : Label → Bool
  | .call _ (.login _) => false
  | _ => true

/-- What the concrete run checks is the condition of the theorem. -/
theorem isRefreshOrLogout_ok (s : St) (l : Label) (h : isRefreshOrLogout s l = true) :
    RefreshesAndLogouts s l := by
  cases l with
  | call i a =>
      cases a with
      | login u => cases h
      | _ => trivial
  | env dt => trivial

/-- Only calls 1 and 2 take part: once they have ended, no transaction is open. -/
theorem race_closed {ok : St → Label → Prop} {as : List Label} {s t : St}
    (has : machine.Run ok raceStart as s) (honly : ∀ j a, Act.call j a ∈ as → j = 1 ∨ j = 2)
    (hstep : machine.next s (.call 2 .run) = some t) (h₁ : ¬ (t.proc 1).Open)
    (h₂ : ¬ (t.proc 2).Open) (j : ℕ) : ¬ (t.proc j).Open := by
  by_cases hj₁ : j = 1
  · rwa [hj₁]
  by_cases hj₂ : j = 2
  · rwa [hj₂]
  have hidle : s.proc j = .idle := by
    rw [Procs.Run.proc_eq has]
    · rfl
    · intro a ha
      rcases honly j a ha with h | h
      · exact hj₁ h
      · exact hj₂ h
  obtain ⟨d, p, -, rfl⟩ := Procs.next_call hstep
  change ¬ (Function.update s.proc 2 p j).Open
  rw [Function.update_of_ne hj₂, hidle]
  exact id

/-- Revoking a family is not final in every interleaving of refreshes and logouts. -/
theorem revocation_not_final :
    ¬ ∀ F s₀, machine.Init s₀ → RevocationFinal RefreshesAndLogouts F s₀ := by
  intro hfinal
  -- the refresh commits between the snapshot of the UPDATE and its first row
  have hrun : ∃ s₁ s₂, machine.exec isRefreshOrLogout raceStart
        (raceRefresh ++ raceLogout ++ [.call 1 .run] ++ raceRevoke) = some s₁ ∧
      machine.next s₁ (.call 2 .run) = some s₂ ∧
      s₁.proc 2 = .commit (.loggedOut 0) ∧ s₂.proc 2 = .done (.loggedOut 0) ∧
      (∃ pair, s₂.proc 1 = .done (.ok 0 pair)) ∧
      ∃ row, (s₂.shared.refreshTokens 1).base = some row ∧ row.familyId = 0 ∧
        row.revokedAt = none := by
    refine ⟨_, _, rfl, rfl, rfl, rfl, ⟨_, rfl⟩, _, rfl, rfl, rfl⟩
  obtain ⟨s₁, s₂, hexec, hstep, hpc, hdone, ⟨pair, hrot⟩, row, hb, hF, hr⟩ := hrun
  have has := Machine.exec_run isRefreshOrLogout_ok hexec
  have hclosed : ∀ j, ¬ (s₂.proc j).Open := by
    refine race_closed has ?_ hstep ?_ ?_
    · intro j a ha
      simp [raceRefresh, raceLogout, raceRevoke] at ha
      tauto
    · rw [hrot]
      exact id
    · rw [hdone]
      exact id
  have hdead := hfinal 0 raceStart raceStart_init s₁ s₂ s₂ _ [] 2 has (Or.inl hpc) trivial hstep
    Machine.Run.refl (fun j hj => absurd hj (hclosed j))
  exact hdead.1 1 row hb hF hr

/-- No refresh that found a live token is at its COMMIT. -/
def noRotation (s : St) (l : Label) : Bool :=
  isRefreshOrLogout s l &&
    match l with
    | .call i .run =>
        match s.proc i with
        | .commit (.ok _ _) => false
        | _ => true
    | _ => true

/-- A step that commits no rotation meets `NoRace`. -/
theorem noRotation_ok (s : St) (l : Label) (h : noRotation s l = true) : NoRace s l := by
  simp only [noRotation, Bool.and_eq_true] at h
  refine ⟨isRefreshOrLogout_ok s l h.1, ?_⟩
  rintro i F pair rfl hpc
  have hfalse := h.2
  simp [hpc] at hfalse

/-- The logout of call 2 after the rotation: its UPDATE has both rows in its snapshot. -/
def lateRevoke : List Label := [.call 2 .run, .call 2 (.visit 1)] ++ raceRevoke

/-- The refresh commits while the logout is open and its UPDATE has not begun: the row it
inserts is in the snapshot, and is revoked with the row it rotated. -/
theorem revocation_final_rotated : ∃ s₁ s₂, machine.Run NoRace raceStart
      (raceRefresh ++ [.call 2 (.logout (sign 0 0 0 .buyer 0))] ++ [.call 1 .run] ++ lateRevoke)
      s₁ ∧
    machine.next s₁ (.call 2 .run) = some s₂ ∧
    (∃ pair, pair.refreshToken = 1 ∧ s₂.proc 1 = .done (.ok 0 pair)) ∧
    (∃ row, (s₂.shared.refreshTokens 1).base = some row ∧ row.familyId = 0) ∧
    ∀ k row, (s₂.shared.refreshTokens k).base = some row → row.familyId = 0 →
      row.revokedAt ≠ none := by
  have hrun : ∃ s t s₁ s₂ pair row, machine.exec noRotation raceStart
        (raceRefresh ++ [.call 2 (.logout (sign 0 0 0 .buyer 0))]) = some s ∧
      machine.next s (.call 1 .run) = some t ∧ s.proc 1 = .commit (.ok 0 pair) ∧
      s.proc 2 = .revokeStart (.logout (sign 0 0 0 .buyer 0)) 0 0 ∧
      machine.exec noRotation t lateRevoke = some s₁ ∧
      machine.next s₁ (.call 2 .run) = some s₂ ∧ s₁.proc 2 = .commit (.loggedOut 0) ∧
      noRotation s₁ (.call 2 .run) = true ∧ s₂.proc 2 = .done (.loggedOut 0) ∧
      pair.refreshToken = 1 ∧ s₂.proc 1 = .done (.ok 0 pair) ∧
      (s₂.shared.refreshTokens 1).base = some row ∧ row.familyId = 0 :=
    ⟨_, _, _, _, _, _, rfl, rfl, rfl, rfl, rfl, rfl, rfl, rfl, rfl, rfl, rfl, rfl, rfl⟩
  obtain ⟨s, t, s₁, s₂, pair, row, hbefore, hcommit, hp₁, hp₂, hafter, hstep, hpc, hok, hdone,
    hpair, hrot, hrow, hF⟩ := hrun
  have hs := Machine.exec_run noRotation_ok hbefore
  have hothers : ∀ j, j ≠ 1 → j ≠ 2 → s.proc j = .idle := by
    intro j h1 h2
    rw [Procs.Run.proc_eq hs]
    · rfl
    · intro a ha
      simp [raceRefresh, h1, h2] at ha
  -- call 2 is open here, and before its UPDATE
  have hnorace : NoRace s (.call 1 .run) := by
    refine ⟨trivial, ?_⟩
    rintro i F p heq - j hj
    obtain ⟨rfl, -⟩ := Act.call.inj heq
    by_cases h2 : j = 2
    · rw [h2, hp₂]
      exact id
    · rw [hothers j hj h2]
      exact id
  have has := (hs.step hnorace hcommit).trans (Machine.exec_run noRotation_ok hafter)
  have hclosed : ∀ j, ¬ (s₂.proc j).Open := by
    refine race_closed has ?_ hstep ?_ ?_
    · intro j a ha
      simp [raceRefresh, lateRevoke, raceRevoke] at ha
      tauto
    · rw [hrot]
      exact id
    · rw [hdone]
      exact id
  exact ⟨s₁, s₂, has, hstep, ⟨pair, hpair, hrot⟩, ⟨row, hrow, hF⟩,
    (revocation_final 0 raceStart raceStart_init s₁ s₂ s₂ _ [] 2 has (Or.inl hpc)
      (noRotation_ok _ _ hok) hstep Machine.Run.refl (fun j hj => absurd hj (hclosed j))).1⟩

end Marketplace.Auth
