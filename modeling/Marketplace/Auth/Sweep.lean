import Marketplace.Auth.Lifetime

/-!
# Auth.Sweep — who can see a sweep

Two runs of the same calls, one from a database state and one from that state after
`sweepExpired`. `Agree` is what the two keep in common: a row that only one of them has is an
expired one. Nobody can tell the two apart by an expired row, except a refresh that looks
for a reuse.
-/

namespace Marketplace.Auth.Atomic

open Core

variable {a b a' b' s : Store} {w w' : Sweep} {tok : Token} {call : Call} {now : ℕ}

/-! ## Rows in common -/

/-- The same row, or one that only one side has and that has expired. -/
inductive AgreeAt {V : Type} (expiresAt : V → ℕ) (now : ℕ) : Option V → Option V → Prop
  | same {x : Option V} : AgreeAt expiresAt now x x
  | left {v : V} : expiresAt v ≤ now → AgreeAt expiresAt now (some v) none
  | right {v : V} : expiresAt v ≤ now → AgreeAt expiresAt now none (some v)

namespace AgreeAt

variable {K V : Type} [DecidableEq K] {expiresAt : V → ℕ} {x y : Option V}

/-- Agreeing at a key goes both ways. -/
theorem symm (h : AgreeAt expiresAt now x y) : AgreeAt expiresAt now y x := by
  cases h with
  | same => exact .same
  | left hexp => exact .right hexp
  | right hexp => exact .left hexp

/-- What agrees now agrees later: rows only expire. -/
theorem later {now' : ℕ} (hnow : now ≤ now') (h : AgreeAt expiresAt now x y) :
    AgreeAt expiresAt now' x y := by
  cases h with
  | same => exact .same
  | left hexp => exact .left (Nat.le_trans hexp hnow)
  | right hexp => exact .right (Nat.le_trans hexp hnow)

/-- Expired rows may go on one side. -/
theorem swept {table : K → Option V} {keys : List K} {k : K} (hw : Swept now expiresAt table keys)
    (h : AgreeAt expiresAt now (table k) y) : AgreeAt expiresAt now (without keys table k) y := by
  cases hk : table k with
  | none =>
      have hgone : without keys table k = none := by
        unfold without
        rw [hk]
        split <;> rfl
      rw [hgone, ← hk]
      exact h
  | some v =>
      rcases hw.expired hk with hstill | hexp
      · rw [hstill, ← hk]
        exact h
      · rw [hk] at h
        unfold without
        split
        · cases h with
          | same => exact .right hexp
          | left => exact .same
        · rw [hk]
          exact h

/-- A row that has expired counts as no row. -/
theorem any_live {x y : Option ℕ} (h : AgreeAt id now x y) :
    x.any (fun e => decide (now < e)) = y.any fun e => decide (now < e) := by
  cases h with
  | same => rfl
  | left hexp => exact decide_eq_false (Nat.not_lt.mpr hexp)
  | right hexp => exact (decide_eq_false (Nat.not_lt.mpr hexp)).symm

/-- A change that leaves the expiry alone keeps two entries in agreement. -/
theorem map {f : V → V} (hf : ∀ v, expiresAt (f v) = expiresAt v) (h : AgreeAt expiresAt now x y) :
    AgreeAt expiresAt now (x.map f) (y.map f) := by
  cases h with
  | same => exact .same
  | left hexp => exact .left (Nat.le_trans (Nat.le_of_eq (hf _)) hexp)
  | right hexp => exact .right (Nat.le_trans (Nat.le_of_eq (hf _)) hexp)

/-- Writing one value on both sides keeps them in agreement at every key. -/
theorem update {f g : K → Option V} {k : K} {v : Option V}
    (h : ∀ k', AgreeAt expiresAt now (f k') (g k')) (k' : K) :
    AgreeAt expiresAt now (Function.update f k v k') (Function.update g k v k') := by
  by_cases hk : k' = k
  · subst hk
    rw [Function.update_self, Function.update_self]
    exact .same
  · rw [Function.update_of_ne hk, Function.update_of_ne hk]
    exact h k'

end AgreeAt

/-- Two states that differ in expired rows only. -/
structure Agree (a b : Store) : Prop where
  now : a.now = b.now
  users : a.users = b.users
  nextToken : a.nextToken = b.nextToken
  nextFamily : a.nextFamily = b.nextFamily
  nextJti : a.nextJti = b.nextJti
  issued : a.issued = b.issued
  tokens : ∀ k, AgreeAt RefreshRow.expiresAt a.now (a.refreshTokens k) (b.refreshTokens k)
  denylist : ∀ j, AgreeAt id a.now (a.accessDenylist j) (b.accessDenylist j)
  families : ∀ f, AgreeAt id a.now (a.revokedFamilies f) (b.revokedFamilies f)

namespace Agree

theorem refl (s : Store) : Agree s s :=
  ⟨rfl, rfl, rfl, rfl, rfl, rfl, fun _ => .same, fun _ => .same, fun _ => .same⟩

/-- Agreement of stores goes both ways. -/
theorem symm (h : Agree a b) : Agree b a where
  now := h.now.symm
  users := h.users.symm
  nextToken := h.nextToken.symm
  nextFamily := h.nextFamily.symm
  nextJti := h.nextJti.symm
  issued := h.issued.symm
  tokens k := h.now ▸ (h.tokens k).symm
  denylist j := h.now ▸ (h.denylist j).symm
  families f := h.now ▸ (h.families f).symm

/-- A sweep on one side keeps the stores in agreement: it drops expired rows only. -/
theorem sweep_left (h : Agree a b) (hw : Sweepable w a) : Agree (sweepExpired w a) b where
  now := h.now
  users := h.users
  nextToken := h.nextToken
  nextFamily := h.nextFamily
  nextJti := h.nextJti
  issued := h.issued
  tokens k := (h.tokens k).swept hw.1
  denylist j := (h.denylist j).swept hw.2.1
  families f := (h.families f).swept hw.2.2

/-- Each side sweeps rows of its own choice. -/
theorem sweep (h : Agree a b) (hw : Sweepable w a) (hw' : Sweepable w' b) :
    Agree (sweepExpired w a) (sweepExpired w' b) :=
  ((h.sweep_left hw).symm.sweep_left hw').symm

/-- Time passes on both sides. -/
theorem tick (h : Agree a b) (dt : ℕ) :
    Agree { a with now := a.now + dt } { b with now := b.now + dt } where
  now := congrArg (· + dt) h.now
  users := h.users
  nextToken := h.nextToken
  nextFamily := h.nextFamily
  nextJti := h.nextJti
  issued := h.issued
  tokens k := (h.tokens k).later (Nat.le_add_right _ _)
  denylist j := (h.denylist j).later (Nat.le_add_right _ _)
  families f := (h.families f).later (Nat.le_add_right _ _)

/-- Revoking a family on both sides keeps them in agreement. -/
theorem revokeFamily (h : Agree a b) (F : FamilyId) : Agree (revokeFamily F a) (revokeFamily F b) where
  now := h.now
  users := h.users
  nextToken := h.nextToken
  nextFamily := h.nextFamily
  nextJti := h.nextJti
  issued := h.issued
  tokens k := by
    unfold Atomic.revokeFamily
    rw [← h.now]
    refine (h.tokens k).map ?_
    intro row
    unfold revokeRow
    split <;> rfl
  denylist := h.denylist
  families f := by
    unfold Atomic.revokeFamily
    rw [← h.now]
    exact AgreeAt.update h.families f

theorem denied (h : Agree a b) (claims : AccessClaims) : Agree (denied claims a) (denied claims b) :=
  { h.revokeFamily claims.fid with denylist := AgreeAt.update h.denylist }

theorem newFamily (h : Agree a b) (n : FamilyId) :
    Agree { a with nextFamily := n } { b with nextFamily := n } :=
  { h with nextFamily := rfl }

/-- Marking a row as used on both sides keeps them in agreement. -/
theorem markUsed (h : Agree a b) (tok : Token) (row : RefreshRow) :
    Agree (markUsed tok row a) (markUsed tok row b) := by
  refine { h with tokens := ?_ }
  unfold Atomic.markUsed
  rw [← h.now]
  exact AgreeAt.update h.tokens

/-- The same pair for both. -/
theorem insertPair (h : Agree a b) (userId : UserId) (role : Role) (F : FamilyId) :
    (insertPair userId role F a).2 = (insertPair userId role F b).2 ∧
    Agree (insertPair userId role F a).1 (insertPair userId role F b).1 := by
  have haccess : newAccess userId role F a = newAccess userId role F b := by
    unfold newAccess
    rw [h.now, h.nextJti]
  have hrow : newRow userId F a = newRow userId F b := by
    unfold newRow
    rw [h.now]
  constructor
  · unfold Atomic.insertPair
    rw [haccess, h.nextToken]
  · refine
      { now := h.now
        users := h.users
        nextToken := congrArg (· + 1) h.nextToken
        nextFamily := h.nextFamily
        nextJti := congrArg (· + 1) h.nextJti
        issued := ?_
        tokens := ?_
        denylist := h.denylist
        families := h.families }
    · unfold Atomic.insertPair
      rw [haccess, h.issued]
    · unfold Atomic.insertPair
      rw [hrow, h.nextToken]
      exact AgreeAt.update h.tokens

end Agree

/-! ## The calls -/

/-- The presented token has a row on one side only, and to that side it is a reuse. -/
def SeesReuse (a b : Store) (tok : Token) : Prop :=
  ∃ row, (a.refreshTokens tok = none ∧ b.refreshTokens tok = some row ∨
    b.refreshTokens tok = none ∧ a.refreshTokens tok = some row) ∧
    row.revokedAt = none ∧ row.usedAt ≠ none

/-- A refresh with a token whose row has expired, and that is no reuse, is rejected. -/
theorem refresh_expired {row : RefreshRow} (hrow : s.refreshTokens tok = some row)
    (hexp : row.expiresAt ≤ s.now) (hno : ¬ (row.revokedAt = none ∧ row.usedAt ≠ none)) :
    refresh tok s = (s, .error unauthorized) := by
  have hr := refresh_cases tok s
  have heq : ∀ r, s.refreshTokens tok = some r → r = row := by
    intro r hr
    rw [hrow] at hr
    exact (Option.some.inj hr).symm
  generalize hout : refresh tok s = out at hr
  rcases out with ⟨s', r⟩
  dsimp only at hr
  cases hr with
  | gone hnone => cases hrow.symm.trans hnone
  | revoked => rfl
  | reused hrow' hrev hused =>
      cases heq _ hrow'
      exact absurd ⟨hrev, hused⟩ hno
  | rejected => rfl
  | exchanged hrow' _ _ hlive _ =>
      cases heq _ hrow'
      exact absurd hexp (Nat.not_le.mpr hlive)

theorem refresh_gone (h : s.refreshTokens tok = none) : refresh tok s = (s, .error unauthorized) := by
  unfold refresh
  rw [h]

/-- A refresh is answered alike on both sides, unless one side still sees a reuse that the other
has swept. -/
theorem Agree.refresh (h : Agree a b) (hno : ¬ SeesReuse a b tok) :
    (refresh tok a).2 = (refresh tok b).2 ∧ Agree (refresh tok a).1 (refresh tok b).1 := by
  have htok := h.tokens tok
  generalize hx : a.refreshTokens tok = x at htok
  generalize hy : b.refreshTokens tok = y at htok
  cases htok with
  | same =>
      unfold Atomic.refresh
      rw [hx, hy]
      cases x with
      | none => exact ⟨rfl, h⟩
      | some row =>
          -- both sides take the same branch
          dsimp only
          rw [← h.now, ← h.users]
          split
          · exact ⟨rfl, h⟩
          · split
            · exact ⟨rfl, h.revokeFamily _⟩
            · split
              · exact ⟨rfl, h⟩
              · split
                · exact ⟨rfl, h⟩
                · next role _ =>
                    have hpair := (h.markUsed tok row).insertPair row.userId role row.familyId
                    exact ⟨congrArg Except.ok hpair.1, hpair.2⟩
  -- the row is there on one side only, and there it has expired
  | @left row hexp =>
      have hreject := refresh_expired hx hexp fun hboth => hno ⟨row, Or.inr ⟨hy, hx⟩, hboth⟩
      rw [hreject, refresh_gone hy]
      exact ⟨rfl, h⟩
  | @right row hexp =>
      have hreject := refresh_expired hy (h.now ▸ hexp) fun hboth => hno ⟨row, Or.inl ⟨hx, hy⟩, hboth⟩
      rw [hreject, refresh_gone hx]
      exact ⟨rfl, h⟩

/-- A login is answered alike on both sides, with whatever sweeps go with it. -/
theorem Agree.login (h : Agree a b) (hw : Sweepable w a) (hw' : Sweepable w' b)
    (user : Option UserId) :
    (login user w a).2 = (login user w' b).2 ∧ Agree (login user w a).1 (login user w' b).1 := by
  unfold Atomic.login
  rw [← h.users]
  cases user.bind fun u => ((a.users u).bind isRole).map (u, ·) with
  | none => exact ⟨rfl, h⟩
  | some p =>
      rcases p with ⟨userId, role⟩
      have hpair := ((h.sweep hw hw').newFamily (a.nextFamily + 1)).insertPair userId role a.nextFamily
      dsimp only
      rw [← h.nextFamily]
      exact ⟨congrArg Except.ok hpair.1, hpair.2⟩

/-- An access token is accepted alike on both sides: what has lapsed does not count. -/
theorem Agree.authenticate (h : Agree a b) (token : Option AccessClaims) :
    authenticate token a = authenticate token b := by
  have hrevoked : ∀ c, isAccessRevoked c a = isAccessRevoked c b := by
    intro c
    unfold isAccessRevoked
    rw [(h.families c.fid).any_live, (h.denylist c.jti).any_live, h.now]
  unfold Atomic.authenticate verify
  rw [h.issued, h.now]
  simp only [hrevoked]

/-- One call on both sides. -/
theorem Agree.step {r r' : Outcome} (h : Agree a b)
    (hno : ∀ tok, call = .refresh tok → ¬ SeesReuse a b tok)
    (hs : step w a call = some (a', r)) (hs' : step w' b call = some (b', r')) :
    r = r' ∧ Agree a' b' := by
  -- each side may sweep as it likes; only a refresh needs the condition
  cases call with
  | login user =>
      simp only [Atomic.step, Option.ite_none_right_eq_some, Option.some.injEq, Prod.mk.injEq] at hs hs'
      rcases hs with ⟨hw, rfl, rfl⟩
      rcases hs' with ⟨hw', rfl, rfl⟩
      rcases h.login hw hw' user with ⟨heq, hagree⟩
      exact ⟨congrArg Outcome.pair heq, hagree⟩
  | refresh tok =>
      simp only [Atomic.step, Option.some.injEq, Prod.mk.injEq] at hs hs'
      rcases hs with ⟨rfl, rfl⟩
      rcases hs' with ⟨rfl, rfl⟩
      rcases h.refresh (hno tok rfl) with ⟨heq, hagree⟩
      exact ⟨congrArg Outcome.pair heq, hagree⟩
  | logout claims =>
      simp only [Atomic.step, Option.ite_none_right_eq_some, Option.some.injEq, Prod.mk.injEq] at hs hs'
      rcases hs with ⟨⟨-, hw⟩, rfl, rfl⟩
      rcases hs' with ⟨⟨-, hw'⟩, rfl, rfl⟩
      exact ⟨rfl, (h.denied claims).sweep hw hw'⟩
  | authenticate token =>
      simp only [Atomic.step, Option.some.injEq, Prod.mk.injEq] at hs hs'
      rcases hs with ⟨rfl, rfl⟩
      rcases hs' with ⟨rfl, rfl⟩
      exact ⟨congrArg Outcome.claims (h.authenticate token), h⟩
  | sweepExpired =>
      simp only [Atomic.step, Option.ite_none_right_eq_some, Option.some.injEq, Prod.mk.injEq] at hs hs'
      rcases hs with ⟨hw, rfl, rfl⟩
      rcases hs' with ⟨hw', rfl, rfl⟩
      exact ⟨rfl, h.sweep hw hw'⟩
  | tick dt =>
      simp only [Atomic.step, Option.some.injEq, Prod.mk.injEq] at hs hs'
      rcases hs with ⟨rfl, rfl⟩
      rcases hs' with ⟨rfl, rfl⟩
      exact ⟨rfl, h.tick dt⟩

/-! ## Two runs of the same calls -/

/-- The two databases and what the calls so far have answered on each. -/
structure Pair where
  kept : Store
  swept : Store
  answers : List (Outcome × Outcome)

/-- Each call runs on both sides, and each side's sweeps take rows of their own choice. -/
def pairs : Machine Pair (Call × Sweep × Sweep) where
  Init _ := True
  next p c :=
    (step c.2.1 p.kept c.1).bind fun x => (step c.2.2 p.swept c.1).map fun y =>
      ⟨x.1, y.1, p.answers ++ [(x.2, y.2)]⟩

/-- No refresh presents a token whose row one side has as used and not revoked, while the other
side has swept it. -/
def NoReuseSeen (p : Pair) (c : Call × Sweep × Sweep) : Prop :=
  ∀ tok, c.1 = .refresh tok → ¬ SeesReuse p.kept p.swept tok

/-- A sweep cannot be seen: whatever calls and sweeps come later, a store that was swept and one
that was not answer alike, as long as no refresh presents an expired row that was used or revoked.
-/
theorem sweep_invisible (s : Store) (w : Sweep) (hw : Sweepable w s)
    (calls : List (Call × Sweep × Sweep)) (p : Pair)
    (hrun : pairs.Run NoReuseSeen ⟨s, sweepExpired w s, []⟩ calls p) :
    ∀ r ∈ p.answers, r.1 = r.2 := by
  have hinv : Agree p.kept p.swept ∧ ∀ r ∈ p.answers, r.1 = r.2 := by
    refine hrun.invariant (P := fun p => Agree p.kept p.swept ∧ ∀ r ∈ p.answers, r.1 = r.2) ?_ ?_
    · rintro p ⟨call, w, w'⟩ q hok hn ⟨hagree, hsame⟩
      simp only [pairs, Option.bind_eq_some_iff, Option.map_eq_some_iff] at hn
      rcases hn with ⟨⟨a', r⟩, hs, ⟨b', r'⟩, hs', rfl⟩
      rcases hagree.step hok hs hs' with ⟨heq, hagree'⟩
      refine ⟨hagree', ?_⟩
      intro x hx
      rcases List.mem_append.mp hx with hx | hx
      · exact hsame x hx
      · rw [List.mem_singleton.mp hx]
        exact heq
    · refine ⟨((Agree.refl s).symm.sweep_left hw).symm, ?_⟩
      intro r hr
      cases hr
  exact hinv.2

/-! ## A sweep that is seen -/

/-- On day 31: token 0 was exchanged for token 1 on day 20 and has expired. -/
def rotatedStore : Store where
  refreshTokens tok :=
    if tok = 0 then some ⟨0, 7, days 30, some (days 20), none⟩
    else if tok = 1 then some ⟨0, 7, days 50, none, none⟩ else none
  accessDenylist := fun _ => none
  revokedFamilies := fun _ => none
  users := fun u => if u = 7 then some "buyer" else none
  now := days 31
  nextToken := 2
  nextFamily := 1
  nextJti := 2
  issued := []

def sweepToken0 : Sweep := ⟨[0], [], []⟩

theorem sweepToken0_sweepable : Sweepable sweepToken0 rotatedStore := by decide

/-- The old token is presented, then the new one. -/
def oldThenNew : List (Call × Sweep × Sweep) :=
  [(.refresh 0, noSweep, noSweep), (.refresh 1, noSweep, noSweep)]

/-- Without the condition a sweep can be seen: a used row that has expired still revokes its
family, and a swept one does not. -/
theorem sweep_visible :
    ¬ ∀ (s : Store) (w : Sweep), Sweepable w s → ∀ (calls : List (Call × Sweep × Sweep)) (p : Pair),
      pairs.Run Machine.Always ⟨s, sweepExpired w s, []⟩ calls p → ∀ r ∈ p.answers, r.1 = r.2 := by
  intro hlaw
  have hrun : ∃ p pair, pairs.exec (fun _ _ => true)
      ⟨rotatedStore, sweepExpired sweepToken0 rotatedStore, []⟩ oldThenNew = some p ∧
      p.answers[1]? = some (.pair (.error unauthorized), .pair (.ok pair)) := ⟨_, _, rfl, rfl⟩
  rcases hrun with ⟨p, pair, hp, hanswer⟩
  have hsame := hlaw rotatedStore sweepToken0 sweepToken0_sweepable oldThenNew p
    (Machine.exec_always hp) _ (List.mem_of_getElem? hanswer)
  cases hsame

/-- With the new token alone the sweep is not seen. -/
theorem sweep_invisible_new : ∃ p : Pair,
    pairs.Run NoReuseSeen ⟨rotatedStore, sweepExpired sweepToken0 rotatedStore, []⟩
      [(.refresh 1, noSweep, noSweep)] p ∧ ∀ r ∈ p.answers, r.1 = r.2 := by
  have hok : NoReuseSeen ⟨rotatedStore, sweepExpired sweepToken0 rotatedStore, []⟩
      (.refresh 1, noSweep, noSweep) := by
    intro tok htok
    cases htok
    rintro ⟨row, ⟨hnone, -⟩ | ⟨hnone, -⟩, -⟩
    · cases hnone
    · cases hnone
  have hr : pairs.Run NoReuseSeen ⟨rotatedStore, sweepExpired sweepToken0 rotatedStore, []⟩
      [(.refresh 1, noSweep, noSweep)] _ := Machine.Run.single hok rfl
  exact ⟨_, hr, sweep_invisible rotatedStore sweepToken0 sweepToken0_sweepable _ _ hr⟩

end Marketplace.Auth.Atomic
