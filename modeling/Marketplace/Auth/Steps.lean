import Marketplace.Auth.Service

/-!
# Auth.Steps — what a statement can do

`Branch` is the service read backwards: one constructor for each branch of `stmt`, with what
the branch has checked and the state it leaves. `stmt_branch` is the one case analysis over
the service, and every other list of what a statement does is drawn from it. `Does` is the
one about `refresh_tokens`; `Plain` are the program points at which a call has no new row and
no live row in hand.
-/

namespace Marketplace.Auth

open Core

variable {i : ℕ} {d d' : Db} {pc pc' : Pc} {a : Stmt}

/-- Not used and not revoked. -/
def RefreshRow.Live (row : RefreshRow) : Prop := row.usedAt = none ∧ row.revokedAt = none

/-- The SELECT of `refresh` has found this row and locked it. -/
structure Found (i : ℕ) (d : Db) (tok : Token) (row : RefreshRow) : Prop where
  seen : (d.refreshTokens tok).view i = some row
  free : (d.refreshTokens tok).Free i

/-- The branches of `stmt`. -/
inductive Branch (i : ℕ) (d : Db) : Pc → Stmt → Db → Pc → Prop
  | refresh {tok : Token} : Branch i d .idle (.refresh tok) d (.refreshSelect tok d.now)
  | stranger {u : UserId} : (d.users u).bind isRole = none →
      Branch i d .idle (.login u) d (.done .reject)
  | login {u : UserId} {role : Role} : (d.users u).bind isRole = some role →
      Branch i d .idle (.login u) { d with nextFamily := d.nextFamily + 1 }
        (.sweep sweptTables (.insertPair u role d.nextFamily) d.now)
  | logout {claims : AccessClaims} :
      Branch i d .idle (.logout claims) d (.revokeStart (.logout claims) claims.fid d.now)
  -- the checks of `refresh` on the row, in the order of the code
  | missing {tok : Token} {at₀ : ℕ} : (d.refreshTokens tok).view i = none →
      Branch i d (.refreshSelect tok at₀) .run d (.commit .reject)
  | revoked {tok : Token} {at₀ : ℕ} {row : RefreshRow} : Found i d tok row →
      row.revokedAt ≠ none →
      Branch i d (.refreshSelect tok at₀) .run (d.putToken i tok (some row)) (.commit .reject)
  | reused {tok : Token} {at₀ : ℕ} {row : RefreshRow} : Found i d tok row →
      row.revokedAt = none → row.usedAt ≠ none →
      Branch i d (.refreshSelect tok at₀) .run (d.putToken i tok (some row))
        (.revokeStart .reuse row.familyId at₀)
  | expired {tok : Token} {at₀ : ℕ} {row : RefreshRow} : Found i d tok row → row.Live →
      row.expiresAt ≤ at₀ →
      Branch i d (.refreshSelect tok at₀) .run (d.putToken i tok (some row)) (.commit .reject)
  | found {tok : Token} {at₀ : ℕ} {row : RefreshRow} : Found i d tok row → row.Live →
      ¬ row.expiresAt ≤ at₀ →
      Branch i d (.refreshSelect tok at₀) .run (d.putToken i tok (some row))
        (.refreshRole tok row at₀)
  | roleless {tok : Token} {row : RefreshRow} {at₀ : ℕ} :
      (d.users row.userId).bind isRole = none →
      Branch i d (.refreshRole tok row at₀) .run d (.commit .reject)
  | role {tok : Token} {row : RefreshRow} {at₀ : ℕ} {role : Role} :
      (d.users row.userId).bind isRole = some role →
      Branch i d (.refreshRole tok row at₀) .run d (.refreshMark tok row role at₀)
  | mark {tok : Token} {row : RefreshRow} {role : Role} {at₀ : ℕ} :
      Branch i d (.refreshMark tok row role at₀) .run
        (d.putToken i tok (some { row with usedAt := some at₀ }))
        (.insertPair row.userId role row.familyId at₀)
  | insert {u : UserId} {role : Role} {F : FamilyId} {at₀ : ℕ} :
      Branch i d (.insertPair u role F at₀) .run (insertPair i d u role F at₀).1
        (insertPair i d u role F at₀).2
  | start {why : RevokeFor} {F : FamilyId} {at₀ : ℕ} :
      Branch i d (.revokeStart why F at₀) .run d (.revokeRows why F at₀ (snapshot i d F))
  | visit {why : RevokeFor} {F : FamilyId} {at₀ : ℕ} {rest : List Token} {k : Token} :
      k ∈ rest → (d.refreshTokens k).Free i →
      Branch i d (.revokeRows why F at₀ rest) (.visit k) (visitRow i F at₀ k d)
        (.revokeRows why F at₀ (rest.erase k))
  | visited {why : RevokeFor} {F : FamilyId} {at₀ : ℕ} :
      Branch i d (.revokeRows why F at₀ []) .run d (.denyFamily why F at₀)
  | denyReused {F : FamilyId} {at₀ : ℕ} : (d.revokedFamilies F).Free i →
      Branch i d (.denyFamily .reuse F at₀) .run
        { d with revokedFamilies :=
            d.revokedFamilies.put i F (some (at₀ + secs accessTtlSec)) }
        (.commit (.reuse F))
  | denyFamily {claims : AccessClaims} {F : FamilyId} {at₀ : ℕ} : (d.revokedFamilies F).Free i →
      Branch i d (.denyFamily (.logout claims) F at₀) .run
        { d with revokedFamilies :=
            d.revokedFamilies.put i F (some (at₀ + secs accessTtlSec)) }
        (.denyJti claims F at₀)
  | denyJti {claims : AccessClaims} {F : FamilyId} {at₀ : ℕ} :
      (d.accessDenylist claims.jti).Free i →
      Branch i d (.denyJti claims F at₀) .run
        { d with accessDenylist :=
            d.accessDenylist.put i claims.jti (some (secs claims.exp)) }
        (.sweep sweptTables (.finishLogout F) at₀)
  | sweptTokens {tables : List SweptTable} {after : AfterSweep} {at₀ : ℕ} {keys : List ℕ} :
      Sweepable i at₀ RefreshRow.expiresAt d.refreshTokens keys →
      Branch i d (.sweep (.refreshTokens :: tables) after at₀) (.sweep keys)
        { d with refreshTokens := d.refreshTokens.deleteAll i keys } (.sweep tables after at₀)
  | sweptJtis {tables : List SweptTable} {after : AfterSweep} {at₀ : ℕ} {keys : List ℕ} :
      Sweepable i at₀ id d.accessDenylist keys →
      Branch i d (.sweep (.accessDenylist :: tables) after at₀) (.sweep keys)
        { d with accessDenylist := d.accessDenylist.deleteAll i keys } (.sweep tables after at₀)
  | sweptFamilies {tables : List SweptTable} {after : AfterSweep} {at₀ : ℕ} {keys : List ℕ} :
      Sweepable i at₀ id d.revokedFamilies keys →
      Branch i d (.sweep (.revokedFamilies :: tables) after at₀) (.sweep keys)
        { d with revokedFamilies := d.revokedFamilies.deleteAll i keys } (.sweep tables after at₀)
  | logged {u : UserId} {role : Role} {F : FamilyId} {at₀ : ℕ} :
      Branch i d (.sweep [] (.insertPair u role F) at₀) .run d (.insertPair u role F at₀)
  | finish {F : FamilyId} {at₀ : ℕ} :
      Branch i d (.sweep [] (.finishLogout F) at₀) .run d (.commit (.loggedOut F))
  | commit {o : Outcome} : Branch i d (.commit o) .run (d.commit i) (.done o)
  | abort {pc : Pc} : Branch i d pc .abort (d.rollback i) .aborted

/-- A row that a sweep takes is there. -/
theorem Sweepable.seen {V : Type} {at₀ : ℕ} {expiresAt : V → ℕ} {T : Table ℕ ℕ V}
    {keys : List ℕ} {k : ℕ} (h : Sweepable i at₀ expiresAt T keys) (hk : k ∈ keys) :
    (T k).view i ≠ none := by
  intro hv
  have hexpired := (h.2 k hk).2
  rw [hv] at hexpired
  cases hexpired

/-- The SELECT ... FOR UPDATE of a refresh ends in one of five ways, by what the row says. -/
theorem refreshSelect_branch {tok : Token} {at₀ : ℕ}
    (h : refreshSelect i d tok at₀ = some (d', pc')) :
    Branch i d (.refreshSelect tok at₀) .run d' pc' := by
  unfold refreshSelect at h
  split at h
  · next hnone =>
      cases h
      exact .missing hnone
  · next row hseen =>
      split at h
      · next hfree =>
          have hfound : Found i d tok row := ⟨hseen, hfree⟩
          split at h
          · next hrevoked =>
              cases h
              exact .revoked hfound (Option.isSome_iff_ne_none.mp hrevoked)
          · next hrevoked =>
              have hnone : row.revokedAt = none := Option.not_isSome_iff_eq_none.mp hrevoked
              split at h
              · next hused =>
                  cases h
                  exact .reused hfound hnone (Option.isSome_iff_ne_none.mp hused)
              · next hused =>
                  have hlive : row.Live := ⟨Option.not_isSome_iff_eq_none.mp hused, hnone⟩
                  split at h
                  · next hexpired =>
                      cases h
                      exact .expired hfound hlive hexpired
                  · next hunexpired =>
                      cases h
                      exact .found hfound hlive hunexpired
      · cases h

/-- The DELETE of one table takes rows that have expired, and the sweep goes on to the next table.
-/
theorem sweepTable_branch {table : SweptTable} {tables : List SweptTable} {after : AfterSweep}
    {at₀ : ℕ} {keys : List ℕ} (h : sweepTable i at₀ keys d table = some d') :
    Branch i d (.sweep (table :: tables) after at₀) (.sweep keys) d' (.sweep tables after at₀) := by
  cases table with
  | refreshTokens =>
      simp only [sweepTable] at h
      split at h
      · next hs =>
          cases h
          exact .sweptTokens hs
      · cases h
  | accessDenylist =>
      simp only [sweepTable] at h
      split at h
      · next hs =>
          cases h
          exact .sweptJtis hs
      · cases h
  | revokedFamilies =>
      simp only [sweepTable] at h
      split at h
      · next hs =>
          cases h
          exact .sweptFamilies hs
      · cases h

theorem stmt_abort (h : stmt i d pc .abort = some (d', pc')) :
    d' = d.rollback i ∧ pc' = .aborted := by
  cases pc <;> simp [stmt, Pc.Open] at h <;> exact ⟨h.1.symm, h.2.symm⟩

/-- Every statement of the service is one of its branches. -/
theorem stmt_branch (h : stmt i d pc a = some (d', pc')) : Branch i d pc a d' pc' := by
  -- a crash is the same at every program point
  by_cases hab : a = .abort
  · subst hab
    obtain ⟨rfl, rfl⟩ := stmt_abort h
    exact .abort
  -- at each program point one label goes on; all others are no step
  cases pc with
  | idle =>
      cases a with
      | refresh tok =>
          cases h
          exact .refresh
      | login u =>
          simp only [stmt] at h
          split at h
          · next hrole =>
              cases h
              exact .stranger hrole
          · next role hrole =>
              cases h
              exact .login hrole
      | logout claims =>
          cases h
          exact .logout
      | abort => exact absurd rfl hab
      | _ => simp [stmt] at h
  | refreshSelect tok at₀ =>
      cases a with
      | run => exact refreshSelect_branch h
      | abort => exact absurd rfl hab
      | _ => simp [stmt] at h
  | refreshRole tok row at₀ =>
      cases a with
      | run =>
          simp only [stmt] at h
          split at h
          · next hrole =>
              cases h
              exact .roleless hrole
          · next role hrole =>
              cases h
              exact .role hrole
      | abort => exact absurd rfl hab
      | _ => simp [stmt] at h
  | refreshMark tok row role at₀ =>
      cases a with
      | run =>
          cases h
          exact .mark
      | abort => exact absurd rfl hab
      | _ => simp [stmt] at h
  | insertPair userId role F at₀ =>
      cases a with
      | run =>
          cases h
          exact .insert
      | abort => exact absurd rfl hab
      | _ => simp [stmt] at h
  | revokeStart why F at₀ =>
      cases a with
      | run =>
          cases h
          exact .start
      | abort => exact absurd rfl hab
      | _ => simp [stmt] at h
  | revokeRows why F at₀ rest =>
      cases a with
      | run =>
          cases rest with
          | nil =>
              cases h
              exact .visited
          | cons k rest => simp [stmt] at h
      | visit k =>
          simp only [stmt] at h
          split at h
          · next hvisit =>
              cases h
              exact .visit hvisit.1 hvisit.2
          · cases h
      | abort => exact absurd rfl hab
      | _ => simp [stmt] at h
  | denyFamily why F at₀ =>
      cases a with
      | run =>
          simp only [stmt, denyFamily] at h
          split at h
          · next hfree =>
              cases why with
              | reuse =>
                  cases h
                  exact .denyReused hfree
              | logout claims =>
                  cases h
                  exact .denyFamily hfree
          · cases h
      | abort => exact absurd rfl hab
      | _ => simp [stmt] at h
  | denyJti claims F at₀ =>
      cases a with
      | run =>
          simp only [stmt, denyJti] at h
          split at h
          · next hfree =>
              cases h
              exact .denyJti hfree
          · cases h
      | abort => exact absurd rfl hab
      | _ => simp [stmt] at h
  | sweep tables after at₀ =>
      cases a with
      | run =>
          cases tables with
          | nil =>
              cases after with
              | insertPair u role F =>
                  cases h
                  exact .logged
              | finishLogout F =>
                  cases h
                  exact .finish
          | cons table tables => cases after <;> simp [stmt] at h
      | sweep keys =>
          cases tables with
          | nil => cases after <;> simp [stmt] at h
          | cons table tables =>
              simp only [stmt, Option.map_eq_some_iff] at h
              obtain ⟨d₁, hswept, h⟩ := h
              cases h
              exact sweepTable_branch hswept
      | abort => exact absurd rfl hab
      | _ => simp [stmt] at h
  | commit o =>
      cases a with
      | run =>
          cases h
          exact .commit
      | abort => exact absurd rfl hab
      | _ => simp [stmt] at h
  | done o =>
      cases a with
      | abort => exact absurd rfl hab
      | _ => simp [stmt] at h
  | aborted =>
      cases a with
      | abort => exact absurd rfl hab
      | _ => simp [stmt] at h

/-- The refresh tokens, and what is drawn, are as before. -/
structure SameTokens (d d' : Db) : Prop where
  rows : d'.refreshTokens = d.refreshTokens
  nextToken : d'.nextToken = d.nextToken
  nextFamily : d'.nextFamily = d.nextFamily

theorem SameTokens.refl (d : Db) : SameTokens d d := ⟨rfl, rfl, rfl⟩

namespace Pc

/-- Nothing of a rotation or of a login is in hand. -/
def Plain : Pc → Prop
  | .revokeStart _ _ _ | .revokeRows _ _ _ _ | .denyFamily _ _ _ | .denyJti _ _ _
  | .sweep _ (.finishLogout _) _ | .commit .reject | .commit (.reuse _) | .commit (.loggedOut _)
  | .done .reject | .done (.reuse _) | .done (.loggedOut _) => True
  | _ => False

/-- The call has put its new row in. -/
def Inserted : Pc → Prop
  | .commit (.ok _ _) => True
  | _ => False

end Pc

/-- What a statement of call `i` does to the refresh tokens. The label matters where a call
begins. -/
inductive Does (i : ℕ) (d : Db) : Pc → Stmt → Db → Pc → Prop
  | login {u : UserId} {role : Role} :
      Does i d .idle (.login u) { d with nextFamily := d.nextFamily + 1 }
        (.sweep sweptTables (.insertPair u role d.nextFamily) d.now)
  /-- The statements on the other tables, and those that find nothing to do. -/
  | plain {pc pc' : Pc} {a : Stmt} {d' : Db} : SameTokens d d' → ¬ pc.Inserted → pc'.Plain →
      Does i d pc a d' pc'
  | present {tok : Token} : Does i d .idle (.refresh tok) d (.refreshSelect tok d.now)
  | lock {a : Stmt} {tok : Token} {at₀ : ℕ} {row : RefreshRow} {pc' : Pc} :
      (d.refreshTokens tok).view i = some row → (d.refreshTokens tok).Free i → pc'.Plain →
      Does i d (.refreshSelect tok at₀) a (d.putToken i tok (some row)) pc'
  | found {a : Stmt} {tok : Token} {at₀ : ℕ} {row : RefreshRow} :
      (d.refreshTokens tok).view i = some row → (d.refreshTokens tok).Free i → row.Live →
      Does i d (.refreshSelect tok at₀) a (d.putToken i tok (some row)) (.refreshRole tok row at₀)
  | role {a : Stmt} {tok : Token} {row : RefreshRow} {at₀ : ℕ} {role : Role} :
      Does i d (.refreshRole tok row at₀) a d (.refreshMark tok row role at₀)
  | mark {a : Stmt} {tok : Token} {row : RefreshRow} {role : Role} {at₀ : ℕ} :
      Does i d (.refreshMark tok row role at₀) a
        (d.putToken i tok (some { row with usedAt := some at₀ }))
        (.insertPair row.userId role row.familyId at₀)
  | insert {a : Stmt} {u : UserId} {role : Role} {F : FamilyId} {at₀ : ℕ} :
      Does i d (.insertPair u role F at₀) a (insertPair i d u role F at₀).1
        (insertPair i d u role F at₀).2
  | visit {a : Stmt} {why : RevokeFor} {F : FamilyId} {at₀ : ℕ} {rest rest' : List Token}
      {k : Token} {row : RefreshRow} : (d.refreshTokens k).view i = some row → (d.refreshTokens k).Free i →
      Does i d (.revokeRows why F at₀ rest) a
        (d.putToken i k
          (some (if toRevoke F row then { row with revokedAt := some at₀ } else row)))
        (.revokeRows why F at₀ rest')
  | swept {a : Stmt} {tables : List SweptTable} {table : SweptTable} {after : AfterSweep} {at₀ : ℕ}
      {keys : List Token} : (∀ k ∈ keys, (d.refreshTokens k).Free i) →
      (∀ k ∈ keys, (d.refreshTokens k).view i ≠ none) →
      Does i d (.sweep (table :: tables) after at₀) a
        { d with refreshTokens := d.refreshTokens.deleteAll i keys } (.sweep tables after at₀)
  | sweptOther {a : Stmt} {tables : List SweptTable} {table : SweptTable} {after : AfterSweep}
      {at₀ : ℕ} {d' : Db} : SameTokens d d' →
      Does i d (.sweep (table :: tables) after at₀) a d' (.sweep tables after at₀)
  | sweepEnds {a : Stmt} {u : UserId} {role : Role} {F : FamilyId} {at₀ : ℕ} :
      Does i d (.sweep [] (.insertPair u role F) at₀) a d (.insertPair u role F at₀)
  | commit {a : Stmt} {o : Outcome} : Does i d (.commit o) a (d.commit i) (.done o)
  | abort {a : Stmt} {pc : Pc} : Does i d pc a (d.rollback i) .aborted

/-- Visiting a row revokes it if it is a live row of the family, and else leaves it. -/
theorem visitRow_does {why : RevokeFor} {F : FamilyId} {at₀ : ℕ} {rest rest' : List Token}
    {k : Token} (hfree : (d.refreshTokens k).Free i) :
    Does i d (.revokeRows why F at₀ rest) a (visitRow i F at₀ k d)
      (.revokeRows why F at₀ rest') := by
  unfold visitRow
  split
  · exact .plain (SameTokens.refl d) id trivial
  · next row hv => exact .visit hv hfree

/-- Every statement of the service is one of the list. -/
theorem stmt_does (h : stmt i d pc a = some (d', pc')) : Does i d pc a d' pc' := by
  have same := SameTokens.refl d
  cases stmt_branch h with
  | refresh => exact .present
  | stranger _ => exact .plain same id trivial
  | login _ => exact .login
  | logout => exact .plain same id trivial
  | missing _ => exact .plain same id trivial
  | revoked hf _ => exact .lock hf.seen hf.free trivial
  | reused hf _ _ => exact .lock hf.seen hf.free trivial
  | expired hf _ _ => exact .lock hf.seen hf.free trivial
  | found hf hlive _ => exact .found hf.seen hf.free hlive
  | roleless _ => exact .plain same id trivial
  | role _ => exact .role
  | mark => exact .mark
  | insert => exact .insert
  | start => exact .plain same id trivial
  | visit _ hfree => exact visitRow_does hfree
  | visited => exact .plain same id trivial
  | denyReused _ => exact .plain ⟨rfl, rfl, rfl⟩ id trivial
  | denyFamily _ => exact .plain ⟨rfl, rfl, rfl⟩ id trivial
  | denyJti _ => exact .plain ⟨rfl, rfl, rfl⟩ id trivial
  | sweptTokens hs => exact .swept (fun k hk => (hs.2 k hk).1) fun k hk => hs.seen hk
  | sweptJtis _ => exact .sweptOther ⟨rfl, rfl, rfl⟩
  | sweptFamilies _ => exact .sweptOther ⟨rfl, rfl, rfl⟩
  | logged => exact .sweepEnds
  | finish => exact .plain same id trivial
  | commit => exact .commit
  | abort => exact .abort

namespace Does

/-- The other calls find their rows as they left them, where the next token is in no version of
the table and a call that marks its row has locked it. -/
theorem keeps {j : ℕ} (h : Does i d pc a d' pc')
    (hfresh : d.refreshTokens d.nextToken = Slot.settled none)
    (hmark : ∀ tok row role at₀, pc = .refreshMark tok row role at₀ →
      (d.refreshTokens tok).Held i) (hne : i ≠ j) :
    Table.Kept j d.refreshTokens d'.refreshTokens := by
  cases h with
  | login => exact Table.Kept.refl j _
  | plain hs _ _ =>
      rw [hs.rows]
      exact Table.Kept.refl j _
  | present => exact Table.Kept.refl j _
  | lock _ hfree _ => exact Table.Kept.put hne hfree
  | found _ hfree _ => exact Table.Kept.put hne hfree
  | role => exact Table.Kept.refl j _
  | mark => exact Table.Kept.put hne (hmark _ _ _ _ rfl).free
  | insert =>
      refine Table.Kept.put hne ?_
      rw [hfresh]
      intro j v hv
      cases hv
  | visit _ hfree => exact Table.Kept.put hne hfree
  | swept hfree _ => exact (Table.Own.deleteAll hfree).kept j hne.symm
  | sweptOther hs =>
      rw [hs.rows]
      exact Table.Kept.refl j _
  | sweepEnds => exact Table.Kept.refl j _
  | commit => exact Table.Kept.commit hne
  | abort => exact Table.Kept.rollback hne

/-- Only COMMIT changes what is committed. -/
theorem base (h : Does i d pc a d' pc') :
    (∀ k, (d'.refreshTokens k).base = (d.refreshTokens k).base) ∨
      ∃ o, pc = .commit o ∧ d' = d.commit i ∧ pc' = .done o := by
  cases h with
  | plain hs _ _ => exact Or.inl fun k => by rw [hs.rows]
  | sweptOther hs => exact Or.inl fun k => by rw [hs.rows]
  | lock _ _ _ => exact Or.inl fun k => Table.put_base
  | found _ _ _ => exact Or.inl fun k => Table.put_base
  | mark => exact Or.inl fun k => Table.put_base
  | insert => exact Or.inl fun k => Table.put_base
  | visit _ _ => exact Or.inl fun k => Table.put_base
  | swept hfree _ => exact Or.inl (Table.Own.deleteAll hfree).base
  | commit => exact Or.inr ⟨_, rfl, rfl, rfl⟩
  | abort => exact Or.inl fun k => Slot.rollback_base
  | _ => exact Or.inl fun _ => rfl

end Does

end Marketplace.Auth
