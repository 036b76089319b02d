import Marketplace.Auth.Atomic
import Marketplace.Auth.Steps

/-!
# Auth.Serial — calls that do not overlap are atomic

The two models of `AuthService` are tied together: a run of `Auth.Service` in which one call is
through before the next one begins, and in which a call takes no time, is a run of `Auth.Atomic`
(`serial_refines`). The transaction of a call sees a database of its own (`seen`), on which each
statement does a piece of the atomic call: `Course` says at every program point what has been
done. A call that crashes leaves nothing but the random ids it has drawn.
-/

namespace Marketplace.Auth.Serial

open Core

/-! ## Turns -/

/-- A call with the rows its sweep takes, a call that crashes, with what is drawn next, or
time. -/
inductive Turn where
  | call (i : ℕ) (c : Atomic.Call) (w : Atomic.Sweep)
  | crash (i : ℕ) (c : Atomic.Call) (nextToken : Token) (nextFamily : FamilyId) (nextJti : Jti)
  | tick (dt : ℕ)

/-- The tables, and the answers so far. -/
structure Book where
  store : Atomic.Store
  answers : ℕ → Option Atomic.Outcome

def Book.next (b : Book) : Turn → Option Book
  | .call i c w =>
      (Atomic.step w b.store c).map fun r => ⟨r.1, Function.update b.answers i (some r.2)⟩
  | .crash _ _ nextToken nextFamily nextJti =>
      if b.store.nextToken ≤ nextToken ∧ b.store.nextFamily ≤ nextFamily ∧
          b.store.nextJti ≤ nextJti then
        some { b with store := { b.store with nextToken, nextFamily, nextJti } }
      else none
  | .tick dt => some { b with store := { b.store with now := b.store.now + dt } }

def turns : Machine Book Turn where
  Init b := ∀ i, b.answers i = none
  next := Book.next

/-- What a call is asked for. -/
def request : Label → Option (ℕ × Atomic.Call)
  | .call i (.refresh tok) => some (i, .refresh tok)
  | .call i (.login userId) => some (i, .login (some userId))
  | .call i (.logout claims) => some (i, .logout claims)
  | _ => none

def Turn.request : Turn → Option (ℕ × Atomic.Call)
  | .call i c _ | .crash i c _ _ _ => some (i, c)
  | .tick _ => none

/-- The answer that goes with the outcome of a transaction. -/
def answer : Atomic.Call → Outcome → Atomic.Outcome
  | .login _, .reject => .pair (.error (.http 401 "invalid credentials"))
  | _, .reject => .pair (.error Atomic.unauthorized)
  | _, .reuse _ => .pair (.error Atomic.unauthorized)
  | _, .ok _ pair => .pair (.ok pair)
  | _, .loggedOut _ => .nothing

theorem answer_ok (c : Atomic.Call) (F : FamilyId) (pair : TokenPair) :
    answer c (.ok F pair) = .pair (.ok pair) := by
  cases c <;> rfl

/-- The token is one of `issued`, or some call has answered it. -/
def Granted (issued : List AccessClaims) (s : St) (claims : AccessClaims) : Prop :=
  claims ∈ issued ∨ ∃ j F pair, s.proc j = .done (.ok F pair) ∧ pair.accessToken = claims

/-- Nobody else is under way, a logout has a token of the service, and time passes between the
calls only. -/
def InTurn (issued : List AccessClaims) (s : St) : Label → Prop
  | .call i a => (∀ j, j ≠ i → ¬ (s.proc j).Open) ∧
      ∀ claims, a = .logout claims → Granted issued s claims
  | .env _ => ∀ j, ¬ (s.proc j).Open

/-! ## The database of a transaction -/

section Seen

variable {i : ℕ} {d d' : Db} {issued : List AccessClaims}

/-- What the transaction of call `i` sees. -/
def seen (i : ℕ) (issued : List AccessClaims) (d : Db) : Atomic.Store where
  refreshTokens k := (d.refreshTokens k).view i
  accessDenylist j := (d.accessDenylist j).view i
  revokedFamilies F := (d.revokedFamilies F).view i
  users := d.users
  now := d.now
  nextToken := d.nextToken
  nextFamily := d.nextFamily
  nextJti := d.nextJti
  issued := issued

/-- Nobody else holds a row. -/
structure Alone (i : ℕ) (d : Db) : Prop where
  refreshTokens : ∀ k, (d.refreshTokens k).Free i
  accessDenylist : ∀ j, (d.accessDenylist j).Free i
  revokedFamilies : ∀ F, (d.revokedFamilies F).Free i

/-- The committed rows are those of the store, and nothing has been drawn twice. -/
structure Shows (σ : Atomic.Store) (d : Db) : Prop where
  refreshTokens : ∀ k, (d.refreshTokens k).base = σ.refreshTokens k
  accessDenylist : ∀ j, (d.accessDenylist j).base = σ.accessDenylist j
  revokedFamilies : ∀ F, (d.revokedFamilies F).base = σ.revokedFamilies F
  users : d.users = σ.users
  now : d.now = σ.now
  nextToken : σ.nextToken ≤ d.nextToken
  nextFamily : σ.nextFamily ≤ d.nextFamily
  nextJti : σ.nextJti ≤ d.nextJti

/-- Nobody holds a row, and the database is the store. -/
structure Same (σ : Atomic.Store) (d : Db) : Prop where
  refreshTokens : ∀ k, d.refreshTokens k = Slot.settled (σ.refreshTokens k)
  accessDenylist : ∀ j, d.accessDenylist j = Slot.settled (σ.accessDenylist j)
  revokedFamilies : ∀ F, d.revokedFamilies F = Slot.settled (σ.revokedFamilies F)
  users : d.users = σ.users
  now : d.now = σ.now
  nextToken : d.nextToken = σ.nextToken
  nextFamily : d.nextFamily = σ.nextFamily
  nextJti : d.nextJti = σ.nextJti

/-- A statement of call `i` writes rows that it has locked, and draws. -/
structure Wrote (i : ℕ) (d d' : Db) : Prop where
  refreshTokens : Table.Own i d.refreshTokens d'.refreshTokens
  accessDenylist : Table.Own i d.accessDenylist d'.accessDenylist
  revokedFamilies : Table.Own i d.revokedFamilies d'.revokedFamilies
  users : d'.users = d.users
  now : d'.now = d.now
  nextToken : d.nextToken ≤ d'.nextToken
  nextFamily : d.nextFamily ≤ d'.nextFamily
  nextJti : d.nextJti ≤ d'.nextJti

theorem Wrote.refl (i : ℕ) (d : Db) : Wrote i d d :=
  ⟨Table.Own.refl i _, Table.Own.refl i _, Table.Own.refl i _, rfl, rfl, Nat.le_refl _,
    Nat.le_refl _, Nat.le_refl _⟩

/-- What a call has written under way does not show: the committed versions are as before. -/
theorem Wrote.shows {σ : Atomic.Store} (h : Wrote i d d') (hσ : Shows σ d) : Shows σ d' where
  refreshTokens k := (h.refreshTokens.base k).trans (hσ.refreshTokens k)
  accessDenylist j := (h.accessDenylist.base j).trans (hσ.accessDenylist j)
  revokedFamilies F := (h.revokedFamilies.base F).trans (hσ.revokedFamilies F)
  users := h.users.trans hσ.users
  now := h.now.trans hσ.now
  nextToken := Nat.le_trans hσ.nextToken h.nextToken
  nextFamily := Nat.le_trans hσ.nextFamily h.nextFamily
  nextJti := Nat.le_trans hσ.nextJti h.nextJti

/-- A call that writes rows of its own leaves every row free for itself. -/
theorem free_of_own {K V : Type} [DecidableEq K] {T T' : Table ℕ K V} (h : Table.Own i T T')
    (hfree : ∀ k, (T k).Free i) : ∀ k, (T' k).Free i := by
  intro k j v hlock
  by_contra hne
  have hheld : (T' k).Held j := ⟨v, hlock⟩
  rcases ((h.kept j hne).held_iff (k := k)).mp hheld with ⟨v', hlock'⟩
  exact hne (hfree k j v' hlock')

theorem Wrote.alone (h : Wrote i d d') (halone : Alone i d) : Alone i d' where
  refreshTokens := free_of_own h.refreshTokens halone.refreshTokens
  accessDenylist := free_of_own h.accessDenylist halone.accessDenylist
  revokedFamilies := free_of_own h.revokedFamilies halone.revokedFamilies

theorem Wrote.tokens {T : Table ℕ Token RefreshRow} (h : Table.Own i d.refreshTokens T) :
    Wrote i d { d with refreshTokens := T } :=
  { Wrote.refl i d with refreshTokens := h }

theorem Wrote.jtis {T : Table ℕ Jti ℕ} (h : Table.Own i d.accessDenylist T) :
    Wrote i d { d with accessDenylist := T } :=
  { Wrote.refl i d with accessDenylist := h }

theorem Wrote.families {T : Table ℕ FamilyId ℕ} (h : Table.Own i d.revokedFamilies T) :
    Wrote i d { d with revokedFamilies := T } :=
  { Wrote.refl i d with revokedFamilies := h }

theorem Wrote.putToken {k : Token} {v : Option RefreshRow} (halone : Alone i d) :
    Wrote i d (d.putToken i k v) :=
  Wrote.tokens (Table.Own.put (halone.refreshTokens k))

theorem view_put {K V : Type} [DecidableEq K] {T : Table ℕ K V} {k : K} {v : Option V} :
    (fun k' => ((T.put i k v) k').view i) = Function.update (fun k' => (T k').view i) k v := by
  funext k'
  rw [Table.view_put_iff, Function.update_apply]

/-- After a DELETE the call sees the table without the keys. -/
theorem view_deleteAll {K V : Type} [DecidableEq K] {T : Table ℕ K V} {keys : List K} :
    (fun k => ((T.deleteAll i keys) k).view i) = Atomic.without keys fun k => (T k).view i := by
  funext k
  unfold Table.deleteAll Atomic.without
  split
  · exact Slot.view_put
  · rfl

theorem seen_putToken {k : Token} {v : Option RefreshRow} :
    seen i issued (d.putToken i k v) = { seen i issued d with
      refreshTokens := Function.update (seen i issued d).refreshTokens k v } :=
  congrArg (fun T => { seen i issued d with refreshTokens := T }) view_put

/-- Denying a family shows in the call's view of the store at once. -/
theorem seen_denyFamily {F : FamilyId} {v : Option ℕ} :
    seen i issued { d with revokedFamilies := d.revokedFamilies.put i F v } =
      { seen i issued d with
        revokedFamilies := Function.update (seen i issued d).revokedFamilies F v } :=
  congrArg (fun T => { seen i issued d with revokedFamilies := T }) view_put

/-- Denying a token shows in the call's view of the store at once. -/
theorem seen_denyJti {jti : Jti} {v : Option ℕ} :
    seen i issued { d with accessDenylist := d.accessDenylist.put i jti v } =
      { seen i issued d with
        accessDenylist := Function.update (seen i issued d).accessDenylist jti v } :=
  congrArg (fun T => { seen i issued d with accessDenylist := T }) view_put

/-- To lock a row is to see what was there. -/
theorem seen_lock {k : Token} {row : RefreshRow} (hk : (d.refreshTokens k).view i = some row) :
    seen i issued (d.putToken i k (some row)) = seen i issued d := by
  have hself : Function.update (seen i issued d).refreshTokens k (some row) =
      (seen i issued d).refreshTokens := by
    rw [← hk]
    exact Function.update_eq_self k (seen i issued d).refreshTokens
  rw [seen_putToken, hself]

end Seen

/-! ## What a call has done so far -/

section Course

variable {i : ℕ} {d d' : Db} {pc pc' : Pc} {a : Stmt} {σ : Atomic.Store} {c : Atomic.Call}

/-- `refresh` may exchange the row. -/
structure Exchangeable (σ : Atomic.Store) (tok : Token) (row : RefreshRow) : Prop where
  found : σ.refreshTokens tok = some row
  unrevoked : row.revokedAt = none
  unused : row.usedAt = none
  unexpired : ¬ row.expiresAt ≤ σ.now

/-- The call revokes the family `F`. -/
def Revokes (σ : Atomic.Store) (c : Atomic.Call) : RevokeFor → FamilyId → Prop
  | .reuse, F => ∃ tok row, c = .refresh tok ∧ σ.refreshTokens tok = some row ∧
      row.revokedAt = none ∧ row.usedAt ≠ none ∧ row.familyId = F
  | .logout claims, F => c = .logout claims ∧ claims ∈ σ.issued ∧ F = claims.fid

/-- What the call has done when it comes to its sweep. -/
def Sweeps (σ : Atomic.Store) (c : Atomic.Call) : AfterSweep → Atomic.Store → Prop
  | .insertPair userId role F, m => c = .login (some userId) ∧
      (σ.users userId).bind isRole = some role ∧ F = σ.nextFamily ∧
      m = { σ with nextFamily := σ.nextFamily + 1 }
  | .finishLogout F, m => ∃ claims, c = .logout claims ∧ claims ∈ σ.issued ∧ F = claims.fid ∧
      m = Atomic.denied claims σ

/-- The rows a sweep takes of one table. -/
def keysOf (w : Atomic.Sweep) : SweptTable → List ℕ
  | .refreshTokens => w.tokens
  | .accessDenylist => w.jtis
  | .revokedFamilies => w.families

/-- The sweep takes `keys` of one table as well. -/
def take (keys : List ℕ) (w : Atomic.Sweep) : SweptTable → Atomic.Sweep
  | .refreshTokens => { w with tokens := keys }
  | .accessDenylist => { w with jtis := keys }
  | .revokedFamilies => { w with families := keys }

/-- The family UPDATE has gone past all rows but `rest`. -/
def revokedBut (rest : List Token) (F : FamilyId) (σ : Atomic.Store) : Atomic.Store :=
  { σ with
    refreshTokens := fun k => if k ∈ rest then σ.refreshTokens k
      else (σ.refreshTokens k).map (Atomic.revokeRow F σ.now) }

/-- Call `c`, begun on `σ`, sees `m` at its program point. -/
def Course (σ m : Atomic.Store) (c : Atomic.Call) : Pc → Prop
  | .refreshSelect tok at₀ => at₀ = m.now ∧ c = .refresh tok ∧ m = σ
  | .refreshRole tok row at₀ => at₀ = m.now ∧ c = .refresh tok ∧ m = σ ∧ Exchangeable σ tok row
  | .refreshMark tok row role at₀ => at₀ = m.now ∧ c = .refresh tok ∧ m = σ ∧
      Exchangeable σ tok row ∧ (σ.users row.userId).bind isRole = some role
  | .insertPair userId role F at₀ => at₀ = m.now ∧ ∃ w, Atomic.step w σ c =
      some ((Atomic.insertPair userId role F m).1,
        .pair (.ok (Atomic.insertPair userId role F m).2))
  | .revokeStart why F at₀ => at₀ = m.now ∧ Revokes σ c why F ∧ m = σ
  | .revokeRows why F at₀ rest => at₀ = m.now ∧ Revokes σ c why F ∧ rest.Nodup ∧
      m = revokedBut rest F σ
  | .denyFamily why F at₀ => at₀ = m.now ∧ Revokes σ c why F ∧ m = revokedBut [] F σ
  | .denyJti claims F at₀ => at₀ = m.now ∧ Revokes σ c (.logout claims) F ∧
      m = Atomic.revokeFamily F σ
  | .sweep tables after at₀ => at₀ = m.now ∧ tables.Nodup ∧ ∃ m₀ w, Sweeps σ c after m₀ ∧
      Atomic.Sweepable w m₀ ∧ (∀ t ∈ tables, keysOf w t = []) ∧ m = Atomic.sweepExpired w m₀
  | .commit outcome => ∃ w, Atomic.step w σ c = some (m, answer c outcome)
  | _ => False

/-- The tokens that are signed by then. -/
def issuedAt (σ : Atomic.Store) : Pc → List AccessClaims
  | .commit (.ok _ pair) => σ.issued ++ [pair.accessToken]
  | _ => σ.issued

/-- No row has a token that was not drawn. -/
def Fresh (σ : Atomic.Store) : Prop := ∀ k, σ.nextToken ≤ k → σ.refreshTokens k = none

theorem without_nil {K V : Type} [DecidableEq K] (table : K → Option V) :
    Atomic.without [] table = table := by
  funext k
  simp [Atomic.without]

theorem sweepExpired_noSweep (m : Atomic.Store) : Atomic.sweepExpired Atomic.noSweep m = m := by
  unfold Atomic.sweepExpired Atomic.noSweep
  rw [without_nil, without_nil, without_nil]

theorem swept_nil {K V : Type} (now : ℕ) (expiresAt : V → ℕ) (table : K → Option V) :
    Atomic.Swept now expiresAt table [] :=
  ⟨Nat.zero_le _, fun _ hk => absurd hk List.not_mem_nil⟩

theorem sweepable_noSweep (m : Atomic.Store) : Atomic.Sweepable Atomic.noSweep m :=
  ⟨swept_nil _ _ _, swept_nil _ _ _, swept_nil _ _ _⟩

theorem revokeRow_eq (F : FamilyId) (now : ℕ) (row : RefreshRow) : Atomic.revokeRow F now row =
    if toRevoke F row then { row with revokedAt := some now } else row := by
  unfold Atomic.revokeRow toRevoke
  simp only [Bool.and_eq_true, beq_iff_eq, Option.isNone_iff_eq_none]

theorem revokedBut_nil {F : FamilyId} : revokedBut [] F σ = { σ with
    refreshTokens := fun k => (σ.refreshTokens k).map (Atomic.revokeRow F σ.now) } := by
  simp [revokedBut]

/-! ## The statements -/

/-- The atomic refresh of a token that can be exchanged: it turns on the role of the user. -/
theorem refresh_found {tok : Token} {row : RefreshRow} (h : Exchangeable σ tok row) :
    Atomic.refresh tok σ = match (σ.users row.userId).bind isRole with
      | none => (σ, .error Atomic.unauthorized)
      | some role =>
          let r := Atomic.insertPair row.userId role row.familyId (Atomic.markUsed tok row σ)
          (r.1, .ok r.2) := by
  unfold Atomic.refresh
  rw [h.found]
  cases hrole : (σ.users row.userId).bind isRole with
  | none => simp [h.unrevoked, h.unused, h.unexpired, hrole]
  | some role => simp [h.unrevoked, h.unused, h.unexpired, hrole]

theorem step_refresh {tok : Token} {r : Atomic.Store × Except Thrown TokenPair}
    (h : Atomic.refresh tok σ = r) (w : Atomic.Sweep) :
    Atomic.step w σ (.refresh tok) = some (r.1, .pair r.2) := by
  subst h
  rfl

theorem step_login {user : Option UserId} {w : Atomic.Sweep} (hw : Atomic.Sweepable w σ) :
    Atomic.step w σ (.login user) =
      some ((Atomic.login user w σ).1, .pair (Atomic.login user w σ).2) := by
  unfold Atomic.step
  exact if_pos hw

/-- A refresh that is rejected leaves the store as it was. -/
theorem course_rejected {tok : Token}
    (h : Atomic.refresh tok σ = (σ, .error Atomic.unauthorized)) (hm : seen i σ.issued d = σ) :
    Course σ (seen i σ.issued d) (.refresh tok) (.commit .reject) := by
  refine ⟨Atomic.noSweep, ?_⟩
  rw [step_refresh h, hm]
  rfl

/-- A refresh has locked its row. -/
theorem course_locked {tok : Token} {at₀ : ℕ} {row : RefreshRow}
    (hc : Course σ (seen i σ.issued d) c (.refreshSelect tok at₀)) (hf : Found i d tok row) :
    at₀ = σ.now ∧ c = .refresh tok ∧ σ.refreshTokens tok = some row ∧
      seen i σ.issued (d.putToken i tok (some row)) = σ := by
  rcases hc with ⟨hat, rfl, hm⟩
  have hrow : (d.refreshTokens tok).view i = σ.refreshTokens tok := by
    rw [← hm]
    rfl
  exact ⟨by rw [hat, hm], rfl, hrow.symm.trans hf.seen, (seen_lock hf.seen).trans hm⟩

/-- A token without a row is rejected by the statements as by the atomic call. -/
theorem course_missing {tok : Token} {at₀ : ℕ}
    (hc : Course σ (seen i σ.issued d) c (.refreshSelect tok at₀))
    (hnone : (d.refreshTokens tok).view i = none) :
    Course σ (seen i σ.issued d) c (.commit .reject) := by
  rcases hc with ⟨-, rfl, hm⟩
  have hrow : (d.refreshTokens tok).view i = σ.refreshTokens tok := by
    rw [← hm]
    rfl
  refine course_rejected ?_ hm
  unfold Atomic.refresh
  rw [← hrow, hnone]

/-- A revoked row is rejected by the statements as by the atomic call. -/
theorem course_revoked {tok : Token} {at₀ : ℕ} {row : RefreshRow}
    (hc : Course σ (seen i σ.issued d) c (.refreshSelect tok at₀)) (hf : Found i d tok row)
    (hrevoked : row.revokedAt ≠ none) :
    Course σ (seen i σ.issued (d.putToken i tok (some row))) c (.commit .reject) := by
  obtain ⟨-, rfl, hfound, hseen⟩ := course_locked hc hf
  refine course_rejected ?_ hseen
  simp [Atomic.refresh, hfound, Option.isSome_iff_ne_none.mpr hrevoked]

theorem course_reused {tok : Token} {at₀ : ℕ} {row : RefreshRow}
    (hc : Course σ (seen i σ.issued d) c (.refreshSelect tok at₀)) (hf : Found i d tok row)
    (hnone : row.revokedAt = none) (hused : row.usedAt ≠ none) :
    Course σ (seen i σ.issued (d.putToken i tok (some row))) c
      (.revokeStart .reuse row.familyId at₀) := by
  obtain ⟨-, rfl, hfound, hseen⟩ := course_locked hc hf
  exact ⟨hc.1, ⟨tok, row, rfl, hfound, hnone, hused, rfl⟩, hseen⟩

/-- An expired row is rejected by the statements as by the atomic call. -/
theorem course_expired {tok : Token} {at₀ : ℕ} {row : RefreshRow}
    (hc : Course σ (seen i σ.issued d) c (.refreshSelect tok at₀)) (hf : Found i d tok row)
    (hlive : row.Live) (hexpired : row.expiresAt ≤ at₀) :
    Course σ (seen i σ.issued (d.putToken i tok (some row))) c (.commit .reject) := by
  obtain ⟨hnow, rfl, hfound, hseen⟩ := course_locked hc hf
  refine course_rejected ?_ hseen
  simp [Atomic.refresh, hfound, hlive.1, hlive.2, hnow ▸ hexpired]

theorem course_found {tok : Token} {at₀ : ℕ} {row : RefreshRow}
    (hc : Course σ (seen i σ.issued d) c (.refreshSelect tok at₀)) (hf : Found i d tok row)
    (hlive : row.Live) (hunexpired : ¬ row.expiresAt ≤ at₀) :
    Course σ (seen i σ.issued (d.putToken i tok (some row))) c (.refreshRole tok row at₀) := by
  obtain ⟨hnow, rfl, hfound, hseen⟩ := course_locked hc hf
  exact ⟨hc.1, rfl, hseen, hfound, hlive.2, hlive.1, hnow ▸ hunexpired⟩

/-- A user whose role is none of the known ones is rejected by the statements as by the atomic
call. -/
theorem course_roleless {tok : Token} {row : RefreshRow} {at₀ : ℕ}
    (hc : Course σ (seen i σ.issued d) c (.refreshRole tok row at₀))
    (hrole : (d.users row.userId).bind isRole = none) :
    Course σ (seen i σ.issued d) c (.commit .reject) := by
  rcases hc with ⟨-, rfl, hm, hrow⟩
  have husers : d.users = σ.users := by
    rw [← hm]
    rfl
  refine course_rejected ?_ hm
  rw [refresh_found hrow, ← husers, hrole]

/-- With a role that is known the statements go on as the atomic call does. -/
theorem course_role {tok : Token} {row : RefreshRow} {at₀ : ℕ} {role : Role}
    (hc : Course σ (seen i σ.issued d) c (.refreshRole tok row at₀))
    (hrole : (d.users row.userId).bind isRole = some role) :
    Course σ (seen i σ.issued d) c (.refreshMark tok row role at₀) := by
  rcases hc with ⟨hat, rfl, hm, hrow⟩
  have husers : d.users = σ.users := by
    rw [← hm]
    rfl
  exact ⟨hat, rfl, hm, hrow, husers ▸ hrole⟩

/-- The mark is the first half of what the atomic exchange does to the rows. -/
theorem course_mark {tok : Token} {row : RefreshRow} {role : Role} {at₀ : ℕ} (halone : Alone i d)
    (hc : Course σ (seen i σ.issued d) c (.refreshMark tok row role at₀)) :
    Course σ (seen i σ.issued (d.putToken i tok (some { row with usedAt := some at₀ }))) c
      (.insertPair row.userId role row.familyId at₀) ∧
    Wrote i d (d.putToken i tok (some { row with usedAt := some at₀ })) := by
  rcases hc with ⟨hat, rfl, hm, hrow, hrole⟩
  refine ⟨⟨hat, Atomic.noSweep, ?_⟩, Wrote.putToken halone⟩
  have hmarked : seen i σ.issued (d.putToken i tok (some { row with usedAt := some at₀ })) =
      Atomic.markUsed tok row σ := by
    rw [seen_putToken, hat, hm]
    rfl
  have hrefresh := refresh_found hrow
  rw [hrole] at hrefresh
  rw [step_refresh hrefresh, hmarked]

/-- The INSERT is the second half: with it the call's view is that after the atomic pair was made.
-/
theorem course_insert {userId : UserId} {role : Role} {F : FamilyId} {at₀ : ℕ}
    (halone : Alone i d) (hc : Course σ (seen i σ.issued d) c (.insertPair userId role F at₀)) :
    Course σ (seen i (issuedAt σ (insertPair i d userId role F at₀).2)
      (insertPair i d userId role F at₀).1) c (insertPair i d userId role F at₀).2 ∧
    Wrote i d (insertPair i d userId role F at₀).1 := by
  rcases hc with ⟨hat, w, hstep⟩
  constructor
  · refine ⟨w, ?_⟩
    have hrows := view_put (i := i) (T := d.refreshTokens) (k := d.nextToken)
      (v := some (Atomic.newRow userId F (seen i σ.issued d)))
    have hstore : seen i (σ.issued ++ [sign d.now d.nextJti userId role F])
        (insertPair i d userId role F d.now).1 =
        (Atomic.insertPair userId role F (seen i σ.issued d)).1 :=
      congrArg (fun T => { (Atomic.insertPair userId role F (seen i σ.issued d)).1 with
        refreshTokens := T }) hrows
    rw [hstep, ← hstore, hat, answer_ok]
    rfl
  · exact ⟨Table.Own.put (halone.refreshTokens _), Table.Own.refl i _, Table.Own.refl i _, rfl, rfl,
      Nat.le_succ _, Nat.le_refl _, Nat.le_succ _⟩

/-- What the UPDATE begins with: the rows of its snapshot are all there is to revoke in the
family. -/
theorem course_revokeStart {why : RevokeFor} {F : FamilyId} {at₀ : ℕ} (hσ : Fresh σ)
    (hc : Course σ (seen i σ.issued d) c (.revokeStart why F at₀)) :
    Course σ (seen i σ.issued d) c (.revokeRows why F at₀ (snapshot i d F)) := by
  rcases hc with ⟨hat, hwhy, hm⟩
  refine ⟨hat, hwhy, List.nodup_range.filter _, ?_⟩
  have hview : ∀ k, (d.refreshTokens k).view i = σ.refreshTokens k := by
    intro k
    rw [← hm]
    rfl
  have hnext : d.nextToken = σ.nextToken := by
    rw [← hm]
    rfl
  -- a row that the snapshot leaves out is not one to revoke
  have hrows : σ.refreshTokens = (revokedBut (snapshot i d F) F σ).refreshTokens := by
    funext k
    unfold revokedBut
    dsimp only
    split
    · rfl
    · next hout =>
        cases hk : σ.refreshTokens k with
        | none => rfl
        | some row =>
            have hlt : k < d.nextToken := by
              rw [hnext]
              by_contra hge
              rw [hσ k (Nat.le_of_not_lt hge)] at hk
              cases hk
            have hno : toRevoke F row ≠ true := by
              intro hrev
              apply hout
              unfold snapshot
              rw [List.mem_filter, hview k, hk]
              exact ⟨List.mem_range.mpr hlt, hrev⟩
            rw [Option.map_some, revokeRow_eq, if_neg hno]
  rw [hm]
  exact congrArg (fun T => { σ with refreshTokens := T }) hrows

/-- One row visited is one row less to revoke, and the call sees it revoked. -/
theorem course_visit {why : RevokeFor} {F : FamilyId} {at₀ : ℕ} {rest : List Token} {k : Token}
    (halone : Alone i d) (hc : Course σ (seen i σ.issued d) c (.revokeRows why F at₀ rest))
    (hk : k ∈ rest) :
    Course σ (seen i σ.issued (visitRow i F at₀ k d)) c (.revokeRows why F at₀ (rest.erase k)) ∧
    Wrote i d (visitRow i F at₀ k d) := by
  rcases hc with ⟨hat, hwhy, hnodup, hm⟩
  have hview : (d.refreshTokens k).view i = σ.refreshTokens k := by
    have hfield : (d.refreshTokens k).view i = (revokedBut rest F σ).refreshTokens k :=
      congrFun (congrArg Atomic.Store.refreshTokens hm) k
    exact hfield.trans (if_pos hk)
  have hnow : at₀ = σ.now := by rw [hat, hm]; rfl
  have hrows : ∀ v, v = (σ.refreshTokens k).map (Atomic.revokeRow F σ.now) →
      { revokedBut rest F σ with
        refreshTokens := Function.update (revokedBut rest F σ).refreshTokens k v } =
      revokedBut (rest.erase k) F σ := by
    rintro v rfl
    refine congrArg (fun T => { σ with refreshTokens := T }) ?_
    funext k'
    rw [Function.update_apply]
    unfold revokedBut
    dsimp only
    by_cases hk' : k' = k
    · subst hk'
      rw [if_pos rfl, if_neg hnodup.not_mem_erase]
    · rw [if_neg hk']
      simp only [List.mem_erase_of_ne hk']
  unfold visitRow
  cases hrow : (d.refreshTokens k).view i with
  | none =>
      -- no row, nothing to revoke
      refine ⟨⟨hat, hwhy, hnodup.erase k, ?_⟩, Wrote.refl i d⟩
      rw [← hrows none (by rw [← hview, hrow]; rfl), hm]
      have hself : Function.update (revokedBut rest F σ).refreshTokens k none =
          (revokedBut rest F σ).refreshTokens := by
        apply Function.update_eq_self_iff.mpr
        simp [revokedBut, hk, ← hview, hrow]
      rw [hself]
  -- the row is revoked now, as the atomic call has it
  | some row =>
      refine ⟨⟨hat, hwhy, hnodup.erase k, ?_⟩, Wrote.putToken halone⟩
      rw [seen_putToken, hm]
      apply hrows
      rw [← hview, hrow, Option.map_some, revokeRow_eq, hnow]

/-- After the family was denied the call sees the store that the atomic revocation makes. -/
theorem seen_denied {why : RevokeFor} {F : FamilyId} {at₀ : ℕ}
    (hc : Course σ (seen i σ.issued d) c (.denyFamily why F at₀)) :
    seen i σ.issued { d with
      revokedFamilies := d.revokedFamilies.put i F (some (at₀ + secs accessTtlSec)) } =
      Atomic.revokeFamily F σ := by
  rcases hc with ⟨hat, -, hm⟩
  rw [seen_denyFamily, hat, hm, revokedBut_nil]
  rfl

/-- The last statement of a reuse: what is left is the 401. -/
theorem course_denyReused {F : FamilyId} {at₀ : ℕ}
    (hc : Course σ (seen i σ.issued d) c (.denyFamily .reuse F at₀)) :
    Course σ (seen i σ.issued { d with
      revokedFamilies := d.revokedFamilies.put i F (some (at₀ + secs accessTtlSec)) }) c
      (.commit (.reuse F)) := by
  have hseen := seen_denied hc
  rcases hc with ⟨-, ⟨tok, row, rfl, hrow, hrev, hused, rfl⟩, -⟩
  have hrefresh : Atomic.refresh tok σ =
      (Atomic.revokeFamily row.familyId σ, .error Atomic.unauthorized) := by
    simp [Atomic.refresh, hrow, hrev, Option.isSome_iff_ne_none.mpr hused]
  refine ⟨Atomic.noSweep, ?_⟩
  rw [step_refresh hrefresh, ← hseen]
  rfl

/-- After the token was denied the call sees the store that the atomic logout makes, but for the
sweep. -/
theorem course_denyJti {claims : AccessClaims} {F : FamilyId} {at₀ : ℕ}
    (hc : Course σ (seen i σ.issued d) c (.denyJti claims F at₀)) :
    Course σ (seen i σ.issued { d with
      accessDenylist := d.accessDenylist.put i claims.jti (some (secs claims.exp)) }) c
      (.sweep sweptTables (.finishLogout F) at₀) := by
  rcases hc with ⟨hat, ⟨rfl, hissued, rfl⟩, hm⟩
  have hseen : seen i σ.issued
      { d with accessDenylist := d.accessDenylist.put i claims.jti (some (secs claims.exp)) } =
      Atomic.denied claims σ := by
    rw [seen_denyJti, hm]
    rfl
  refine ⟨hat, by decide, Atomic.denied claims σ, Atomic.noSweep, ⟨claims, rfl, hissued, rfl, rfl⟩,
    sweepable_noSweep _, fun t _ => ?_, ?_⟩
  · cases t <;> rfl
  · rw [sweepExpired_noSweep]
    exact hseen

/-- One DELETE of the sweep. -/
theorem seen_sweepTable {t : SweptTable} {keys : List ℕ}
    (h : sweepTable i d.now keys d t = some d') :
    Atomic.Sweepable (take keys Atomic.noSweep t) (seen i σ.issued d) ∧
    seen i σ.issued d' = Atomic.sweepExpired (take keys Atomic.noSweep t) (seen i σ.issued d) ∧
    Wrote i d d' := by
  have own : ∀ {V : Type} {expiresAt : V → ℕ} {T : Table ℕ ℕ V},
      Sweepable i d.now expiresAt T keys →
      Atomic.Swept d.now expiresAt (fun k => (T k).view i) keys ∧
        Table.Own i T (T.deleteAll i keys) := by
    intro V expiresAt T hs
    exact ⟨⟨hs.1, fun k hk => (hs.2 k hk).2⟩, Table.Own.deleteAll fun k hk => (hs.2 k hk).1⟩
  unfold Atomic.sweepExpired
  cases t with
  | refreshTokens =>
      simp only [sweepTable, Option.ite_none_right_eq_some, Option.some.injEq] at h
      rcases h with ⟨hs, rfl⟩
      rcases own hs with ⟨hswept, hown⟩
      refine ⟨⟨hswept, swept_nil _ _ _, swept_nil _ _ _⟩, ?_, Wrote.tokens hown⟩
      simp only [take, Atomic.noSweep, without_nil]
      exact congrArg (fun T => { seen i σ.issued d with refreshTokens := T }) view_deleteAll
  | accessDenylist =>
      simp only [sweepTable, Option.ite_none_right_eq_some, Option.some.injEq] at h
      rcases h with ⟨hs, rfl⟩
      rcases own hs with ⟨hswept, hown⟩
      refine ⟨⟨swept_nil _ _ _, hswept, swept_nil _ _ _⟩, ?_, Wrote.jtis hown⟩
      simp only [take, Atomic.noSweep, without_nil]
      exact congrArg (fun T => { seen i σ.issued d with accessDenylist := T }) view_deleteAll
  | revokedFamilies =>
      simp only [sweepTable, Option.ite_none_right_eq_some, Option.some.injEq] at h
      rcases h with ⟨hs, rfl⟩
      rcases own hs with ⟨hswept, hown⟩
      refine ⟨⟨swept_nil _ _ _, swept_nil _ _ _, hswept⟩, ?_, Wrote.families hown⟩
      simp only [take, Atomic.noSweep, without_nil]
      exact congrArg (fun T => { seen i σ.issued d with revokedFamilies := T }) view_deleteAll

/-- A sweep goes on with a table it has not been to. -/
theorem sweep_take {t : SweptTable} {keys : List ℕ} {w : Atomic.Sweep} {m : Atomic.Store}
    (hnone : keysOf w t = []) (hw : Atomic.Sweepable w m)
    (ht : Atomic.Sweepable (take keys Atomic.noSweep t) (Atomic.sweepExpired w m)) :
    Atomic.Sweepable (take keys w t) m ∧
    Atomic.sweepExpired (take keys Atomic.noSweep t) (Atomic.sweepExpired w m) =
      Atomic.sweepExpired (take keys w t) m := by
  cases t with
  | refreshTokens =>
      have hnil : w.tokens = [] := hnone
      have hrows : Atomic.Swept m.now RefreshRow.expiresAt (Atomic.without w.tokens m.refreshTokens)
        keys := ht.1
      rw [hnil, without_nil] at hrows
      refine ⟨⟨hrows, hw.2⟩, ?_⟩
      simp only [Atomic.sweepExpired, take, Atomic.noSweep, hnil, without_nil]
  | accessDenylist =>
      have hnil : w.jtis = [] := hnone
      have hrows : Atomic.Swept m.now id (Atomic.without w.jtis m.accessDenylist) keys := ht.2.1
      rw [hnil, without_nil] at hrows
      refine ⟨⟨hw.1, hrows, hw.2.2⟩, ?_⟩
      simp only [Atomic.sweepExpired, take, Atomic.noSweep, hnil, without_nil]
  | revokedFamilies =>
      have hnil : w.families = [] := hnone
      have hrows : Atomic.Swept m.now id (Atomic.without w.families m.revokedFamilies) keys :=
        ht.2.2
      rw [hnil, without_nil] at hrows
      refine ⟨⟨hw.1, hw.2.1, hrows⟩, ?_⟩
      simp only [Atomic.sweepExpired, take, Atomic.noSweep, hnil, without_nil]

theorem keysOf_take_ne {t t' : SweptTable} {keys : List ℕ} {w : Atomic.Sweep} (hne : t' ≠ t) :
    keysOf (take keys w t) t' = keysOf w t' := by
  cases t <;> cases t' <;> first | rfl | exact absurd rfl hne

/-- Sweeping one table is a part of the atomic sweep. -/
theorem course_sweep {t : SweptTable} {tables : List SweptTable} {after : AfterSweep} {at₀ : ℕ}
    {keys : List ℕ} (hc : Course σ (seen i σ.issued d) c (.sweep (t :: tables) after at₀))
    (h : sweepTable i at₀ keys d t = some d') :
    Course σ (seen i σ.issued d') c (.sweep tables after at₀) ∧ Wrote i d d' := by
  rcases hc with ⟨rfl, hnodup, m₀, w, hsweeps, hw, hkeys, hm⟩
  rcases seen_sweepTable (σ := σ) h with ⟨ht, hseen, hwrote⟩
  rw [hm] at ht hseen
  rcases sweep_take (hkeys t List.mem_cons_self) hw ht with ⟨hw', hm'⟩
  -- the tables still to come are none of those that were swept, since none is listed twice
  refine ⟨⟨hwrote.now.symm, (List.nodup_cons.mp hnodup).2, m₀, take keys w t, hsweeps, hw', ?_,
    hseen.trans hm'⟩, hwrote⟩
  intro t' ht'
  have hne : t' ≠ t := by
    rintro rfl
    exact (List.nodup_cons.mp hnodup).1 ht'
  rw [keysOf_take_ne hne]
  exact hkeys t' (List.mem_cons_of_mem t ht')

/-- The sweep of a login is through. -/
theorem course_logged {userId : UserId} {role : Role} {F : FamilyId} {at₀ : ℕ}
    (hc : Course σ (seen i σ.issued d) c (.sweep [] (.insertPair userId role F) at₀)) :
    Course σ (seen i σ.issued d) c (.insertPair userId role F at₀) := by
  rcases hc with ⟨hat, -, m₀, w, ⟨rfl, hrole, rfl, rfl⟩, hw, -, hm⟩
  refine ⟨hat, w, ?_⟩
  have hlogin : Atomic.login (some userId) w σ =
      ((Atomic.insertPair userId role σ.nextFamily (seen i σ.issued d)).1,
        .ok (Atomic.insertPair userId role σ.nextFamily (seen i σ.issued d)).2) := by
    unfold Atomic.login
    rw [Option.bind_some, hrole, hm]
    rfl
  have hw' : Atomic.Sweepable w σ := hw
  rw [step_login hw', hlogin]

/-- The sweep of a logout is through. -/
theorem course_finish {F : FamilyId} {at₀ : ℕ}
    (hc : Course σ (seen i σ.issued d) c (.sweep [] (.finishLogout F) at₀)) :
    Course σ (seen i σ.issued d) c (.commit (.loggedOut F)) := by
  rcases hc with ⟨-, -, m₀, w, ⟨claims, rfl, hissued, rfl, rfl⟩, hw, -, hm⟩
  refine ⟨w, ?_⟩
  have hstep : Atomic.step w σ (.logout claims) =
      some (Atomic.sweepExpired w (Atomic.denied claims σ), .nothing) := if_pos ⟨hissued, hw⟩
  rw [hstep, ← hm]
  rfl

/-- A statement goes on with the call, or commits it. -/
theorem Course.step (hσ : Fresh σ) (halone : Alone i d)
    (hc : Course σ (seen i (issuedAt σ pc) d) c pc) (h : stmt i d pc a = some (d', pc'))
    (ha : a ≠ .abort) :
    (∃ o, pc = .commit o ∧ d' = d.commit i ∧ pc' = .done o) ∨
      Course σ (seen i (issuedAt σ pc') d') c pc' ∧ Wrote i d d' := by
  have same := Wrote.refl i d
  -- one case a branch, each to its own lemma; the COMMIT stands apart
  cases stmt_branch h with
  | refresh => exact hc.elim
  | stranger _ => exact hc.elim
  | login _ => exact hc.elim
  | logout => exact hc.elim
  | missing hnone => exact Or.inr ⟨course_missing hc hnone, same⟩
  | revoked hf hrevoked => exact Or.inr ⟨course_revoked hc hf hrevoked, Wrote.putToken halone⟩
  | reused hf hnone hused => exact Or.inr ⟨course_reused hc hf hnone hused, Wrote.putToken halone⟩
  | expired hf hlive hexpired =>
      exact Or.inr ⟨course_expired hc hf hlive hexpired, Wrote.putToken halone⟩
  | found hf hlive hunexpired =>
      exact Or.inr ⟨course_found hc hf hlive hunexpired, Wrote.putToken halone⟩
  | roleless hrole => exact Or.inr ⟨course_roleless hc hrole, same⟩
  | role hrole => exact Or.inr ⟨course_role hc hrole, same⟩
  | mark => exact Or.inr (course_mark halone hc)
  | insert => exact Or.inr (course_insert halone hc)
  | start => exact Or.inr ⟨course_revokeStart hσ hc, same⟩
  | visit hk _ => exact Or.inr (course_visit halone hc hk)
  | visited => exact Or.inr ⟨⟨hc.1, hc.2.1, hc.2.2.2⟩, same⟩
  | denyReused hfree => exact Or.inr ⟨course_denyReused hc, Wrote.families (Table.Own.put hfree)⟩
  | denyFamily hfree =>
      exact Or.inr ⟨⟨hc.1, hc.2.1, seen_denied hc⟩, Wrote.families (Table.Own.put hfree)⟩
  | denyJti hfree => exact Or.inr ⟨course_denyJti hc, Wrote.jtis (Table.Own.put hfree)⟩
  | sweptTokens hs => exact Or.inr (course_sweep hc (if_pos hs))
  | sweptJtis hs => exact Or.inr (course_sweep hc (if_pos hs))
  | sweptFamilies hs => exact Or.inr (course_sweep hc (if_pos hs))
  | logged => exact Or.inr ⟨course_logged hc, same⟩
  | finish => exact Or.inr ⟨course_finish hc, same⟩
  | commit => exact Or.inl ⟨_, rfl, rfl, rfl⟩
  | abort => exact absurd rfl ha

/-- A call in its course has a transaction open. -/
theorem Course.isOpen {m : Atomic.Store} (hc : Course σ m c pc) : pc.Open := by
  cases pc with
  | idle => exact hc.elim
  | done o => exact hc.elim
  | aborted => exact hc.elim
  | _ => trivial

/-! ## The ends of a call -/

/-- A new pair takes the next ids, so no row has an id that is still to come. -/
theorem Fresh.insertPair {userId : UserId} {role : Role} {F : FamilyId} (hσ : Fresh σ) :
    Fresh (Atomic.insertPair userId role F σ).1 := by
  intro k hk
  have hlt : σ.nextToken < k := hk
  have hne : k ≠ σ.nextToken := Nat.ne_of_gt hlt
  exact (Function.update_of_ne hne _ _).trans (hσ k (Nat.le_of_lt hlt))

/-- A sweep adds no row. -/
theorem Fresh.sweepExpired {w : Atomic.Sweep} (hσ : Fresh σ) : Fresh (Atomic.sweepExpired w σ) := by
  intro k hk
  show Atomic.without w.tokens σ.refreshTokens k = none
  unfold Atomic.without
  split
  · rfl
  · exact hσ k hk

/-- Revoking a family adds no row. -/
theorem Fresh.revokeFamily {F : FamilyId} (hσ : Fresh σ) : Fresh (Atomic.revokeFamily F σ) := by
  intro k hk
  show (σ.refreshTokens k).map _ = none
  rw [hσ k hk]
  rfl

/-- A refresh adds at most the row of the next id. -/
theorem Fresh.refresh {tok : Token} (hσ : Fresh σ) : Fresh (Atomic.refresh tok σ).1 := by
  unfold Atomic.refresh
  split
  · exact hσ
  · next row hrow =>
      have hmarked : Fresh (Atomic.markUsed tok row σ) := by
        intro k hk
        have hne : k ≠ tok := by
          rintro rfl
          rw [hσ k hk] at hrow
          cases hrow
        exact (Function.update_of_ne hne _ _).trans (hσ k hk)
      split
      · exact hσ
      · split
        · exact hσ.revokeFamily
        · split
          · exact hσ
          · split
            · exact hσ
            · exact hmarked.insertPair

/-- No call makes a row whose id is still to come. -/
theorem Fresh.step {w : Atomic.Sweep} {σ' : Atomic.Store} {o : Atomic.Outcome} (hσ : Fresh σ)
    (h : Atomic.step w σ c = some (σ', o)) : Fresh σ' := by
  cases c with
  | login user =>
      simp only [Atomic.step, Option.ite_none_right_eq_some, Option.some.injEq, Prod.mk.injEq] at h
      rcases h with ⟨-, rfl, -⟩
      unfold Atomic.login
      split
      · exact hσ
      · have hswept : Fresh { Atomic.sweepExpired w σ with nextFamily := σ.nextFamily + 1 } :=
          hσ.sweepExpired
        exact hswept.insertPair
  | refresh tok =>
      cases h
      exact hσ.refresh
  | logout claims =>
      simp only [Atomic.step, Option.ite_none_right_eq_some, Option.some.injEq, Prod.mk.injEq] at h
      rcases h with ⟨-, rfl, -⟩
      have hdenied : Fresh (Atomic.denied claims σ) := hσ.revokeFamily
      exact hdenied.sweepExpired
  | authenticate token =>
      cases h
      exact hσ
  | sweepExpired =>
      simp only [Atomic.step, Option.ite_none_right_eq_some, Option.some.injEq, Prod.mk.injEq] at h
      rcases h with ⟨-, rfl, -⟩
      exact hσ.sweepExpired
  | tick dt =>
      cases h
      exact hσ

/-- A COMMIT settles a row, if nobody else holds it, at what the call saw. -/
theorem commit_of_free {V : Type} {r : Slot ℕ V} (h : r.Free i) :
    r.commit i = Slot.settled (r.view i) := by
  by_cases hheld : r.Held i
  · exact Slot.commit_of_held hheld
  · rw [Slot.commit_of_not_held hheld, Slot.view_of_not_held hheld]
    exact congrArg (fun l => (⟨r.base, l⟩ : Slot ℕ V)) (Slot.lock_none_of_free h hheld)

/-- A ROLLBACK settles a row, if nobody else holds it, at what was committed. -/
theorem rollback_of_free {V : Type} {r : Slot ℕ V} (h : r.Free i) :
    r.rollback i = Slot.settled r.base := by
  by_cases hheld : r.Held i
  · exact Slot.rollback_of_held hheld
  · rw [Slot.rollback_of_not_held hheld]
    exact congrArg (fun l => (⟨r.base, l⟩ : Slot ℕ V)) (Slot.lock_none_of_free h hheld)

/-- What the transaction saw is there after its COMMIT. -/
theorem same_commit {issued : List AccessClaims} (halone : Alone i d) :
    Same (seen i issued d) (d.commit i) :=
  ⟨fun k => commit_of_free (halone.refreshTokens k),
    fun j => commit_of_free (halone.accessDenylist j),
    fun F => commit_of_free (halone.revokedFamilies F), rfl, rfl, rfl, rfl, rfl⟩

/-- After a ROLLBACK the tables are the store of before, but for the ids that were drawn. -/
theorem same_rollback (halone : Alone i d) (hs : Shows σ d) :
    Same { σ with nextToken := d.nextToken, nextFamily := d.nextFamily, nextJti := d.nextJti }
      (d.rollback i) where
  refreshTokens k := by
    rw [← hs.refreshTokens k]
    exact rollback_of_free (halone.refreshTokens k)
  accessDenylist j := by
    rw [← hs.accessDenylist j]
    exact rollback_of_free (halone.accessDenylist j)
  revokedFamilies F := by
    rw [← hs.revokedFamilies F]
    exact rollback_of_free (halone.revokedFamilies F)
  users := hs.users
  now := hs.now
  nextToken := rfl
  nextFamily := rfl
  nextJti := rfl

/-- Tables without drafts show the store. -/
theorem Same.shows (h : Same σ d) : Shows σ d where
  refreshTokens k := by rw [h.refreshTokens k]; rfl
  accessDenylist j := by rw [h.accessDenylist j]; rfl
  revokedFamilies F := by rw [h.revokedFamilies F]; rfl
  users := h.users
  now := h.now
  nextToken := Nat.le_of_eq h.nextToken.symm
  nextFamily := Nat.le_of_eq h.nextFamily.symm
  nextJti := Nat.le_of_eq h.nextJti.symm

/-- A settled row is free for everybody. -/
theorem free_of_settled {V : Type} {r : Slot ℕ V} {v : Option V} (h : r = Slot.settled v) :
    r.Free i := by
  subst h
  intro j w hlock
  cases hlock

theorem view_of_settled {K V : Type} {T : Table ℕ K V} {table : K → Option V}
    (h : ∀ k, T k = Slot.settled (table k)) : (fun k => (T k).view i) = table := by
  funext k
  rw [h k, Slot.view_settled]

theorem Same.alone (h : Same σ d) (i : ℕ) : Alone i d where
  refreshTokens k := free_of_settled (h.refreshTokens k)
  accessDenylist j := free_of_settled (h.accessDenylist j)
  revokedFamilies F := free_of_settled (h.revokedFamilies F)

/-- Without drafts a call sees the store itself. -/
theorem Same.seen (h : Same σ d) (i : ℕ) : seen i σ.issued d = σ := by
  unfold Serial.seen
  rw [view_of_settled h.refreshTokens, view_of_settled h.accessDenylist,
    view_of_settled h.revokedFamilies, h.users, h.now, h.nextToken, h.nextFamily, h.nextJti]

/-- A call begins. A login whose role is none is over at once. -/
theorem course_start (hsame : Same σ d) (h : stmt i d .idle a = some (d', pc'))
    (hissued : ∀ claims, a = .logout claims → claims ∈ σ.issued) :
    ∃ c, request (.call i a) = some (i, c) ∧
      ((d' = d ∧ pc' = .done .reject ∧ ∃ w, Atomic.step w σ c = some (σ, answer c .reject)) ∨
        Course σ (seen i (issuedAt σ pc') d') c pc' ∧ Wrote i d d') := by
  have hm := hsame.seen i
  -- a login without role is over at once; everything else begins a course
  cases stmt_branch h with
  | refresh => exact ⟨_, rfl, Or.inr ⟨⟨rfl, rfl, hm⟩, Wrote.refl i d⟩⟩
  | @stranger userId hrole =>
      rw [hsame.users] at hrole
      refine ⟨_, rfl, Or.inl ⟨rfl, rfl, Atomic.noSweep, ?_⟩⟩
      have hlogin : Atomic.login (some userId) Atomic.noSweep σ =
          (σ, .error (.http 401 "invalid credentials")) := by
        unfold Atomic.login
        rw [Option.bind_some, hrole]
        rfl
      rw [step_login (sweepable_noSweep σ), hlogin]
      rfl
  | login hrole =>
      rw [hsame.users] at hrole
      -- the family id is drawn before the sweep
      have hdraw : seen i σ.issued { d with nextFamily := d.nextFamily + 1 } =
          { seen i σ.issued d with nextFamily := d.nextFamily + 1 } := rfl
      rw [hm, hsame.nextFamily] at hdraw
      refine ⟨_, rfl, Or.inr ⟨⟨rfl, by decide, { σ with nextFamily := σ.nextFamily + 1 },
        Atomic.noSweep, ⟨rfl, hrole, hsame.nextFamily, rfl⟩, sweepable_noSweep _, fun t _ => ?_,
        ?_⟩, ?_⟩⟩
      · cases t <;> rfl
      · rw [sweepExpired_noSweep, ← hdraw, hsame.nextFamily]
        rfl
      · exact ⟨Table.Own.refl i _, Table.Own.refl i _, Table.Own.refl i _, rfl, rfl,
          Nat.le_refl _, Nat.le_succ _, Nat.le_refl _⟩
  | @logout claims =>
      exact ⟨_, rfl, Or.inr ⟨⟨rfl, ⟨rfl, hissued claims rfl, rfl⟩, hm⟩, Wrote.refl i d⟩⟩
  | abort => cases h

end Course

/-! ## Runs -/

section Runs

variable {i : ℕ} {d' : Db} {pc' : Pc} {s : St} {b : Book} {c : Atomic.Call}
  {rs ts : List (ℕ × Atomic.Call)} {issued : List AccessClaims}

/-- What the answers of the calls `rs` and the book have to do with each other. -/
structure Facts (issued : List AccessClaims) (rs : List (ℕ × Atomic.Call)) (s : St) (b : Book) :
    Prop where
  fresh : Fresh b.store
  shows : Shows b.store s.shared
  asked : ∀ r ∈ rs, s.proc r.1 ≠ .idle
  answers : ∀ j o, s.proc j = .done o → ∃ c, (j, c) ∈ rs ∧ b.answers j = some (answer c o)
  issued : ∀ claims, Granted issued s claims → claims ∈ b.store.issued

/-- Between two calls the database is the book's, within a call the book is as it was when the
call began. -/
inductive Sim (rs ts : List (ℕ × Atomic.Call)) (s : St) (b : Book) : Prop
  | between : (∀ j, ¬ (s.proc j).Open) → Same b.store s.shared → rs = ts → Sim rs ts s b
  | within (i : ℕ) (c : Atomic.Call) : (∀ j, j ≠ i → ¬ (s.proc j).Open) → Alone i s.shared →
      Course b.store (seen i (issuedAt b.store (s.proc i)) s.shared) c (s.proc i) →
      rs = ts ++ [(i, c)] → (∀ r ∈ ts, r.1 ≠ i) → Sim rs ts s b

/-- Whoever has asked is past its start, also after the step. -/
theorem Facts.asked_update {more : List (ℕ × Atomic.Call)} (h : Facts issued rs s b)
    (hpc : pc' ≠ .idle) (hmore : ∀ r ∈ more, r.1 = i) :
    ∀ r ∈ rs ++ more, Function.update s.proc i pc' r.1 ≠ .idle := by
  intro r hr
  by_cases hri : r.1 = i
  · rw [hri, Function.update_self]
    exact hpc
  · rw [Function.update_of_ne hri]
    rcases List.mem_append.mp hr with hr | hr
    · exact h.asked r hr
    · exact absurd (hmore r hr) hri

/-- Call `i` is under way now, or gone. -/
theorem Facts.move {b' : Book} {more : List (ℕ × Atomic.Call)} (h : Facts issued rs s b)
    (hprev : ∀ o, s.proc i ≠ .done o) (hidle : pc' ≠ .idle) (hdone : ∀ o, pc' ≠ .done o)
    (hmore : ∀ r ∈ more, r.1 = i) (hfresh : Fresh b'.store) (hshows : Shows b'.store d')
    (hanswers : b'.answers = b.answers) (hissued : b'.store.issued = b.store.issued) :
    Facts issued (rs ++ more) ⟨d', Function.update s.proc i pc'⟩ b' := by
  have hsame : ∀ j o, Function.update s.proc i pc' j = .done o → s.proc j = .done o := by
    intro j o hj
    by_cases hji : j = i
    · subst hji
      rw [Function.update_self] at hj
      exact absurd hj (hdone o)
    · rwa [Function.update_of_ne hji] at hj
  refine ⟨hfresh, hshows, h.asked_update hidle hmore, ?_, ?_⟩
  · intro j o hj
    rcases h.answers j o (hsame j o hj) with ⟨c, hc, hanswer⟩
    exact ⟨c, List.mem_append_left _ hc, hanswers ▸ hanswer⟩
  · intro claims hclaims
    rw [hissued]
    apply h.issued claims
    rcases hclaims with hold | ⟨j, F, pair, hj, hpair⟩
    · exact Or.inl hold
    · exact Or.inr ⟨j, F, pair, hsame j _ hj, hpair⟩

/-- Call `i` has answered. -/
theorem Facts.answered {b' : Book} {o : Outcome} {more : List (ℕ × Atomic.Call)}
    (h : Facts issued rs s b) (hin : (i, c) ∈ rs ++ more) (hmore : ∀ r ∈ more, r.1 = i)
    (hfresh : Fresh b'.store) (hshows : Shows b'.store d')
    (hanswers : b'.answers = Function.update b.answers i (some (answer c o)))
    (hissued : b'.store.issued = issuedAt b.store (.commit o)) :
    Facts issued (rs ++ more) ⟨d', Function.update s.proc i (.done o)⟩ b' := by
  have hold : ∀ claims ∈ b.store.issued, claims ∈ b'.store.issued := by
    intro claims hclaims
    rw [hissued]
    unfold issuedAt
    split
    · exact List.mem_append_left _ hclaims
    · exact hclaims
  refine ⟨hfresh, hshows, h.asked_update Pc.noConfusion hmore, ?_, ?_⟩
  · intro j o' hj
    replace hj : Function.update s.proc i (.done o) j = .done o' := hj
    by_cases hji : j = i
    · subst hji
      rw [Function.update_self] at hj
      cases hj
      exact ⟨c, hin, by rw [hanswers, Function.update_self]⟩
    · rw [Function.update_of_ne hji] at hj
      rcases h.answers j o' hj with ⟨c', hc', hanswer⟩
      exact ⟨c', List.mem_append_left _ hc', by rw [hanswers, Function.update_of_ne hji, hanswer]⟩
  · rintro claims (hclaims | ⟨j, F, pair, hj, hpair⟩)
    · exact hold claims (h.issued claims (Or.inl hclaims))
    · replace hj : Function.update s.proc i (.done o) j = .done (.ok F pair) := hj
      by_cases hji : j = i
      · subst hji
        rw [Function.update_self] at hj
        cases hj
        rw [hissued, ← hpair]
        exact List.mem_append_right _ List.mem_cons_self
      · rw [Function.update_of_ne hji] at hj
        exact hold claims (h.issued claims (Or.inr ⟨j, F, pair, hj, hpair⟩))

/-- If nobody else is under way and this call is not, nobody is. -/
theorem not_open_update (hothers : ∀ j, j ≠ i → ¬ (s.proc j).Open) (hpc : ¬ pc'.Open) :
    ∀ j, ¬ (Function.update s.proc i pc' j).Open := by
  intro j
  by_cases hji : j = i
  · subst hji
    rw [Function.update_self]
    exact hpc
  · rw [Function.update_of_ne hji]
    exact hothers j hji

/-- The step of a call opens no other call. -/
theorem others_update (hothers : ∀ j, j ≠ i → ¬ (s.proc j).Open) :
    ∀ j, j ≠ i → ¬ (Function.update s.proc i pc' j).Open := by
  intro j hji
  rw [Function.update_of_ne hji]
  exact hothers j hji

/-- What a step leads to: the book may take a turn. -/
def Matched (issued : List AccessClaims) (rs ts : List (ℕ × Atomic.Call)) (s' : St) (b : Book) :
    Prop :=
  ∃ us b', turns.Run Machine.Always b us b' ∧ Facts issued rs s' b' ∧
    Sim rs (ts ++ us.filterMap Turn.request) s' b'

/-- A call that moves without an open transaction has just begun. -/
theorem stmt_begins {pc : Pc} {a : Stmt} {d : Db} (hpc : ¬ pc.Open)
    (h : stmt i d pc a = some (d', pc')) : pc = .idle := by
  cases pc with
  | idle => rfl
  | done o => cases a <;> simp [stmt, Pc.Open] at h
  | aborted => cases a <;> simp [stmt, Pc.Open] at h
  | _ => exact absurd trivial hpc

/-- A call with an open transaction asks for nothing new. -/
theorem request_none {pc : Pc} {a : Stmt} {d : Db} (hpc : pc.Open)
    (h : stmt i d pc a = some (d', pc')) : request (.call i a) = none := by
  cases stmt_branch h with
  | refresh => exact hpc.elim
  | stranger _ => exact hpc.elim
  | login _ => exact hpc.elim
  | logout => exact hpc.elim
  | _ => rfl

/-- A call that begins. -/
theorem matched_start {a : Stmt} (hf : Facts issued rs s b) (hnone : ∀ j, ¬ (s.proc j).Open)
    (hsame : Same b.store s.shared)
    (hgranted : ∀ claims, a = .logout claims → Granted issued s claims)
    (h : stmt i s.shared (s.proc i) a = some (d', pc')) :
    Matched issued (rs ++ (request (.call i a)).toList) rs
      ⟨d', Function.update s.proc i pc'⟩ b := by
  have hidle : s.proc i = .idle := stmt_begins (hnone i) h
  rw [hidle] at h
  have hprev : ∀ o, s.proc i ≠ .done o := by
    intro o ho
    rw [hidle] at ho
    cases ho
  rcases course_start hsame h fun claims hc => hf.issued claims (hgranted claims hc) with
    ⟨c, hc, ⟨rfl, rfl, w, hstep⟩ | ⟨hcourse, hwrote⟩⟩
  · -- a login with no role is a turn of its own
    rw [hc]
    have hnext : turns.next b (.call i c w) =
        some ⟨b.store, Function.update b.answers i (some (answer c .reject))⟩ := by
      show (Atomic.step w b.store c).map _ = _
      rw [hstep]
      rfl
    refine ⟨_, _, Machine.Run.once hnext, ?_, ?_⟩
    · exact hf.answered (List.mem_append_right _ List.mem_cons_self)
        (fun r hr => congrArg Prod.fst (List.mem_singleton.mp hr)) hf.fresh hsame.shows rfl rfl
    · exact Sim.between (not_open_update (fun j _ => hnone j) id) hsame rfl
  · rw [hc]
    -- the call has begun: its turn comes with its COMMIT
    refine ⟨[], b, Machine.Run.refl, ?_, ?_⟩
    · refine hf.move hprev ?_ ?_ (fun r hr => congrArg Prod.fst (List.mem_singleton.mp hr)) hf.fresh
        (hwrote.shows hsame.shows) rfl rfl
      · rintro rfl
        exact hcourse.isOpen
      · rintro o rfl
        exact hcourse.isOpen
    · refine Sim.within i c (others_update fun j _ => hnone j) (hwrote.alone (hsame.alone i))
        ?_ ?_ ?_
      · show Course b.store (seen i (issuedAt b.store (Function.update s.proc i pc' i)) d') c
          (Function.update s.proc i pc' i)
        rw [Function.update_self]
        exact hcourse
      · rw [List.filterMap_nil, List.append_nil]
        rfl
      · intro r hr hri
        rw [List.filterMap_nil, List.append_nil] at hr
        apply hf.asked r hr
        rw [hri, hidle]

/-- A call that goes on, commits or crashes. -/
theorem matched_goes {a : Stmt} (hf : Facts issued rs s b)
    (hothers : ∀ j, j ≠ i → ¬ (s.proc j).Open) (halone : Alone i s.shared)
    (hcourse : Course b.store (seen i (issuedAt b.store (s.proc i)) s.shared) c (s.proc i))
    (hrs : rs = ts ++ [(i, c)]) (hts : ∀ r ∈ ts, r.1 ≠ i)
    (h : stmt i s.shared (s.proc i) a = some (d', pc')) :
    Matched issued rs ts ⟨d', Function.update s.proc i pc'⟩ b := by
  have hprev : ∀ o, s.proc i ≠ .done o := by
    intro o ho
    have hopen := hcourse.isOpen
    rw [ho] at hopen
    exact hopen
  have hin : (i, c) ∈ rs ++ [] := by
    rw [List.append_nil, hrs]
    exact List.mem_append_right _ List.mem_cons_self
  have hnil : ∀ r ∈ ([] : List (ℕ × Atomic.Call)), r.1 = i := fun r hr => absurd hr List.not_mem_nil
  by_cases hab : a = .abort
  · -- the rows are rolled back, the ids that were drawn are not
    subst hab
    rcases stmt_abort h with ⟨rfl, rfl⟩
    have hnext : turns.next b
        (.crash i c s.shared.nextToken s.shared.nextFamily s.shared.nextJti) = some
        { b with store := { b.store with
          nextToken := s.shared.nextToken, nextFamily := s.shared.nextFamily,
          nextJti := s.shared.nextJti } } :=
      if_pos ⟨hf.shows.nextToken, hf.shows.nextFamily, hf.shows.nextJti⟩
    have hsame := same_rollback halone hf.shows
    refine ⟨_, _, Machine.Run.once hnext, ?_, ?_⟩
    · have hfacts : Facts issued (rs ++ [])
          ⟨s.shared.rollback i, Function.update s.proc i .aborted⟩
          { b with store := { b.store with
            nextToken := s.shared.nextToken, nextFamily := s.shared.nextFamily,
            nextJti := s.shared.nextJti } } :=
        hf.move hprev Pc.noConfusion (fun _ => Pc.noConfusion) hnil
          (fun k hk => hf.fresh k (Nat.le_trans hf.shows.nextToken hk)) hsame.shows rfl rfl
      rwa [List.append_nil] at hfacts
    · exact Sim.between (not_open_update hothers id) hsame hrs
  · rcases hcourse.step hf.fresh halone h hab with ⟨o, hpc, rfl, rfl⟩ | ⟨hnew, hwrote⟩
    · -- the COMMIT is where the atomic call takes place
      rw [hpc] at hcourse
      rcases hcourse with ⟨w, hstep⟩
      have hnext : turns.next b (.call i c w) =
          some ⟨seen i (issuedAt b.store (.commit o)) s.shared,
            Function.update b.answers i (some (answer c o))⟩ := by
        show (Atomic.step w b.store c).map _ = _
        rw [hstep]
        rfl
      have hsame : Same (seen i (issuedAt b.store (.commit o)) s.shared) (s.shared.commit i) :=
        same_commit halone
      refine ⟨_, _, Machine.Run.once hnext, ?_, ?_⟩
      · have hfacts : Facts issued (rs ++ [])
            ⟨s.shared.commit i, Function.update s.proc i (.done o)⟩
            ⟨seen i (issuedAt b.store (.commit o)) s.shared,
              Function.update b.answers i (some (answer c o))⟩ :=
          hf.answered hin hnil (hf.fresh.step hstep) hsame.shows rfl rfl
        rwa [List.append_nil] at hfacts
      · exact Sim.between (not_open_update hothers id) hsame hrs
    · -- any other statement is no turn of the book
      refine ⟨[], b, Machine.Run.refl, ?_, ?_⟩
      · have hfacts : Facts issued (rs ++ []) ⟨d', Function.update s.proc i pc'⟩ b := by
          refine hf.move hprev ?_ ?_ hnil hf.fresh (hwrote.shows hf.shows) rfl rfl
          · rintro rfl
            exact hnew.isOpen
          · rintro o rfl
            exact hnew.isOpen
        rwa [List.append_nil] at hfacts
      · rw [List.filterMap_nil, List.append_nil]
        refine Sim.within i c (others_update hothers) (hwrote.alone halone) ?_ hrs hts
        show Course b.store (seen i (issuedAt b.store (Function.update s.proc i pc' i)) d') c
          (Function.update s.proc i pc' i)
        rw [Function.update_self]
        exact hnew

/-- Every step of the statements is matched by a turn of the book, or by none. -/
theorem matched {l : Label} {s' : St} (hf : Facts issued rs s b) (hs : Sim rs ts s b)
    (hok : InTurn issued s l) (hn : machine.next s l = some s') :
    Matched issued (rs ++ (request l).toList) ts s' b := by
  cases l with
  | call i a =>
      rcases Procs.next_call hn with ⟨d', pc', hst, rfl⟩
      -- between two calls the step begins one; within a call it is that call's
      cases hs with
      | between hnone hsame heq =>
          subst heq
          exact matched_start hf hnone hsame hok.2 hst
      | within i₀ c hothers halone hcourse hrs hts =>
          -- the call under way is the one that steps: no other may
          have hi : i₀ = i := by
            by_contra hne
            exact hok.1 i₀ hne hcourse.isOpen
          subst hi
          rw [request_none hcourse.isOpen hst, Option.toList_none, List.append_nil]
          exact matched_goes hf hothers halone hcourse hrs hts hst
  | env dt =>
      rcases Procs.next_env hn with ⟨d', hd, rfl⟩
      cases hd
      cases hs with
      | between hnone hsame heq =>
          have hnow : s.shared.now + dt = b.store.now + dt := by rw [hsame.now]
          have hsame' : Same { b.store with now := b.store.now + dt }
              { s.shared with now := s.shared.now + dt } :=
            ⟨hsame.refreshTokens, hsame.accessDenylist, hsame.revokedFamilies, hsame.users, hnow,
              hsame.nextToken, hsame.nextFamily, hsame.nextJti⟩
          have hnext : turns.next b (.tick dt) =
              some { b with store := { b.store with now := b.store.now + dt } } := rfl
          refine ⟨_, _, Machine.Run.once hnext, ?_, Sim.between hnone hsame' ?_⟩
          · refine ⟨hf.fresh, hsame'.shows, ?_, ?_, hf.issued⟩
            · intro r hr
              exact hf.asked r (List.append_nil rs ▸ hr)
            · intro j o hj
              rcases hf.answers j o hj with ⟨c, hc, hanswer⟩
              exact ⟨c, List.mem_append_left _ hc, hanswer⟩
          · rw [heq]
            rfl
      | within i c _ _ hcourse _ _ => exact absurd hcourse.isOpen (hok i)

end Runs

/-- Every run in which no call begins before the last one is through, and no call takes time, is
a run of the atomic calls: its committed rows are theirs, and each call answers as there. -/
theorem serial_refines {b₀ : Book} {s₀ s : St} {as : List Label} (hinit : machine.Init s₀)
    (hsame : Same b₀.store s₀.shared) (hrun : machine.Run (InTurn b₀.store.issued) s₀ as s) :
    ∃ us b, turns.Run Machine.Always b₀ us b ∧ Shows b.store s.shared ∧
      ((∀ j, ¬ (s.proc j).Open) → Same b.store s.shared) ∧
      us.filterMap Turn.request =
        (as.filterMap request).filter (fun r => ¬ (s.proc r.1).Open) ∧
      ∀ j o, s.proc j = .done o →
        ∃ c, (j, c) ∈ as.filterMap request ∧ b.answers j = some (answer c o) := by
  have hall : ∃ us b, turns.Run Machine.Always b₀ us b ∧
      Facts b₀.store.issued (as.filterMap request) s b ∧
      Sim (as.filterMap request) (us.filterMap Turn.request) s b := by
    -- on the run; a step is a turn of the book or none
    induction hrun with
    | refl =>
        refine ⟨[], b₀, Machine.Run.refl, ?_, Sim.between ?_ hsame rfl⟩
        · refine ⟨?_, hsame.shows, fun r hr => absurd hr List.not_mem_nil, ?_, ?_⟩
          · intro k hk
            have hbase := hinit.1.2.2.2 k (hsame.nextToken ▸ hk)
            rw [hsame.refreshTokens k] at hbase
            exact hbase
          · intro j o hj
            rw [hinit.2 j] at hj
            cases hj
          · rintro claims (hclaims | ⟨j, F, pair, hj, -⟩)
            · exact hclaims
            · rw [hinit.2 j] at hj
              cases hj
        · intro j hopen
          rw [hinit.2 j] at hopen
          exact hopen
    | @step as t u l _ hok hn ih =>
        rcases ih with ⟨us, b, hb, hf, hs⟩
        rcases matched hf hs hok hn with ⟨vs, b', hb', hf', hs'⟩
        -- a step adds to both lists the same request, or none to either
        have hrequests : (as ++ [l]).filterMap request =
            as.filterMap request ++ (request l).toList := by
          rw [List.filterMap_append]
          cases hl : request l with
          | none => simp [hl]
          | some r => simp [hl]
        rw [hrequests]
        refine ⟨us ++ vs, b', hb.trans hb', hf', ?_⟩
        rw [List.filterMap_append]
        exact hs'
  rcases hall with ⟨us, b, hb, hf, hs⟩
  refine ⟨us, b, hb, hf.shows, ?_, ?_, hf.answers⟩
  · intro hnone
    cases hs with
    | between _ hsame _ => exact hsame
    | within i c _ _ hcourse _ _ => exact absurd hcourse.isOpen (hnone i)
  · cases hs with
    | between hnone _ heq =>
        rw [← heq, List.filter_eq_self.mpr]
        intro r _
        exact decide_eq_true (hnone r.1)
    | within i c hothers _ hcourse hrs hts =>
        -- the call under way is the last one asked for, and it has no turn yet
        have hkept : (us.filterMap Turn.request).filter (fun r => ¬ (s.proc r.1).Open) =
            us.filterMap Turn.request := by
          rw [List.filter_eq_self]
          intro r hr
          exact decide_eq_true (hothers r.1 (hts r hr))
        have hlast : [(i, c)].filter (fun r => ¬ (s.proc r.1).Open) = [] := by
          rw [List.filter_eq_nil_iff]
          intro r hr
          rw [List.mem_singleton.mp hr, decide_eq_true_eq]
          exact fun hno => hno hcourse.isOpen
        rw [hrs, List.filter_append, hkept, hlast, List.append_nil]

/-! ## A stolen refresh token -/

/-- The statements of one call on its own. -/
theorem solo_run {i : ℕ} {s t : St} {as : List Stmt} {issued : List AccessClaims}
    (hothers : ∀ j, j ≠ i → ¬ (s.proc j).Open) (hlogout : ∀ claims, .logout claims ∉ as)
    (h : machine.exec (fun _ _ => true) s (as.map (Act.call i)) = some t) :
    machine.Run (InTurn issued) s (as.map (Act.call i)) t ∧ ∀ j, j ≠ i → t.proc j = s.proc j := by
  induction as generalizing s with
  | nil =>
      cases h
      exact ⟨Machine.Run.refl, fun _ _ => rfl⟩
  | cons a as ih =>
      simp only [List.map_cons, Machine.exec, if_true, Option.bind_eq_some_iff] at h
      rcases h with ⟨u, hn, hrest⟩
      rcases Procs.next_call hn with ⟨d', pc', -, rfl⟩
      rcases ih (others_update hothers)
        (fun claims hc => hlogout claims (List.mem_cons_of_mem a hc)) hrest with ⟨hrun, hsame⟩
      constructor
      · refine Machine.Run.cons ⟨hothers, ?_⟩ hn hrun
        rintro claims rfl
        exact absurd List.mem_cons_self (hlogout claims)
      · intro j hj
        rw [hsame j hj]
        exact Function.update_of_ne hj _ _

/-- No call is under way once the only one that was has answered. -/
theorem quiet_after {i : ℕ} {s t : St} {o : Outcome} (hquiet : ∀ j, j ≠ i → ¬ (s.proc j).Open)
    (hother : ∀ j, j ≠ i → t.proc j = s.proc j) (hdone : t.proc i = .done o) :
    ∀ j, ¬ (t.proc j).Open := by
  intro j
  by_cases hj : j = i
  · rw [hj, hdone]
    exact id
  · rw [hother j hj]
    exact hquiet j hj

def oneUser : St where
  shared :=
    { refreshTokens := Table.ofBase fun _ => none
      accessDenylist := Table.ofBase fun _ => none
      revokedFamilies := Table.ofBase fun _ => none
      users := fun u => if u = 1 then some "buyer" else none
      now := 100, nextToken := 0, nextFamily := 0, nextJti := 0 }
  proc _ := .idle

def emptyBook : Book where
  store := seen 0 [] oneUser.shared
  answers _ := none

def loginStmts : List Stmt := [.login 1, .sweep [], .sweep [], .sweep [], .run, .run, .run]

def refreshStmts : List Stmt := [.refresh 0, .run, .run, .run, .run, .run]

def reuseStmts : List Stmt := [.refresh 0, .run, .run, .visit 0, .visit 1, .run, .run, .run]

/-- The first token of a login is presented twice, and the second time it is refused. -/
theorem serial_refines_reuse : ∃ (s : St) (us : List Turn) (b : Book),
    turns.Run Machine.Always emptyBook us b ∧ Same b.store s.shared ∧
    us.filterMap Turn.request = [(0, .login (some 1)), (1, .refresh 0), (2, .refresh 0)] ∧
    b.answers 2 = some (.pair (.error Atomic.unauthorized)) := by
  obtain ⟨t, ht, ⟨o, hlogin⟩, u, hu, ⟨o', hrefresh⟩, s, hs, hreuse⟩ :
      ∃ t, machine.exec (fun _ _ => true) oneUser (loginStmts.map (Act.call 0)) = some t ∧
        (∃ o, t.proc 0 = .done o) ∧
        ∃ u, machine.exec (fun _ _ => true) t (refreshStmts.map (Act.call 1)) = some u ∧
          (∃ o, u.proc 1 = .done o) ∧
          ∃ s, machine.exec (fun _ _ => true) u (reuseStmts.map (Act.call 2)) = some s ∧
            s.proc 2 = .done (.reuse 0) :=
    ⟨_, rfl, ⟨_, rfl⟩, _, rfl, ⟨_, rfl⟩, _, rfl, rfl⟩
  have hinit : machine.Init oneUser :=
    ⟨⟨fun _ => rfl, fun _ => rfl, fun _ => rfl, fun _ _ => rfl⟩, fun _ => rfl⟩
  have hsame : Same emptyBook.store oneUser.shared :=
    ⟨fun _ => rfl, fun _ => rfl, fun _ => rfl, rfl, rfl, rfl, rfl, rfl⟩
  -- one call after the other
  rcases solo_run (fun _ _ => id) (by simp [loginStmts]) ht with ⟨hrun₀, hother₀⟩
  have hquiet₀ := quiet_after (fun _ _ => id) hother₀ hlogin
  rcases solo_run (fun j _ => hquiet₀ j) (by simp [refreshStmts]) hu with ⟨hrun₁, hother₁⟩
  have hquiet₁ := quiet_after (fun j _ => hquiet₀ j) hother₁ hrefresh
  rcases solo_run (fun j _ => hquiet₁ j) (by simp [reuseStmts]) hs with ⟨hrun₂, hother₂⟩
  have hquiet₂ := quiet_after (fun j _ => hquiet₁ j) hother₂ hreuse
  have hrun : machine.Run (InTurn emptyBook.store.issued) oneUser
      (loginStmts.map (Act.call 0) ++ refreshStmts.map (Act.call 1) ++
        reuseStmts.map (Act.call 2)) s := (hrun₀.trans hrun₁).trans hrun₂
  rcases serial_refines hinit hsame hrun with ⟨us, b, hb, -, hstore, hrequests, hanswers⟩
  refine ⟨s, us, b, hb, hstore hquiet₂, ?_, ?_⟩
  · rw [hrequests, List.filter_eq_self.mpr fun r _ => decide_eq_true (hquiet₂ r.1)]
    rfl
  · rcases hanswers 2 _ hreuse with ⟨c, -, hanswer⟩
    rw [hanswer]
    cases c <;> rfl

end Marketplace.Auth.Serial
