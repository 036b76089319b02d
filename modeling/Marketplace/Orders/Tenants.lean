import Marketplace.Orders.Conservation
import Marketplace.Orders.Verdict

/-!
# Orders.Tenants — requests under keys of different users

The primary key of `idempotency_records` is the key alone, so a record of one user answers the
request of another. Where no other call commits an order under its key before it has ended, a
request is answered as `verdict` says.
-/

namespace Marketplace.Orders

open Core Auth Outbox

variable {η : Type} [DecidableEq η] {hash : Request → η} {i : ℕ} {d₀ d d' : Db η}
  {pc pc' : Pc} {a : Stmt} {inp : PlaceOrderInput} {s t : St η} {l : Label}

/-- The call has returned, thrown or been cut off. -/
def Pc.Ended (pc : Pc) : Prop := ¬ pc.Open ∧ pc ≠ .idle

/-- Before call `i` has ended, no other call commits an order under the key of `inp`. -/
def Unclaimed (inp : PlaceOrderInput) (i : ℕ) (s : St η) (l : Label) : Prop :=
  ∀ j inp' at₀ order row k, l = .call j .run → j ≠ i → s.proc j = .commit inp' at₀ order row →
    inp.key = some k → inp'.key = some k → (s.proc i).Ended

/-- Nothing is recorded under the key of the request. -/
def NoRecord (inp : PlaceOrderInput) (d : Db η) : Prop :=
  ∀ k, inp.key = some k → (d.records k).base = none

/-- The call has found nothing under its key. -/
def Unanswered : Pc → Prop
  | .rollback _ none | .replay _ => False
  | .placed _ (.error err) => ¬ OfKey err
  | .placed _ (.ok res) => res.replayed = false
  | _ => True

section

omit [DecidableEq η]

/-- An error of the pricing is none of a key. -/
theorem priceLines_ofKey {lines : List Line} {items : List Item} {err : Thrown}
    (h : priceLines d lines items = .error err) : ¬ OfKey err := by
  induction items generalizing lines with
  | nil => cases h
  | cons item rest ih =>
      rw [priceLines] at h
      split at h
      · split at h
        · cases h
          exact id
        · exact ih h
      · cases h
        exact id

/-- An error of the verdict is none of a key. -/
theorem verdict_ofKey {err : Thrown} (h : verdict d inp = .error err) : ¬ OfKey err := by
  unfold verdict at h
  cases hp : priceLines d [] inp.sortedItems with
  | error e =>
      rw [hp] at h
      cases h
      exact priceLines_ofKey hp
  | ok lines =>
      rw [hp] at h
      change enterLines d inp lines = .error err at h
      unfold enterLines at h
      split at h
      · cases h
      · cases h
        exact id

/-- An error the order has earned is none of a key. -/
theorem Fails.ofKey {err : Thrown} (h : Fails d₀ inp err) : ¬ OfKey err := by
  rcases h with ⟨p, rfl⟩ | h | ⟨rfl, -⟩
  · exact id
  · exact verdict_ofKey h
  · exact id

end

/-! ## One statement -/

/-- Where no record is, nothing is replayed. -/
theorem findReplay_none (hnew : NoRecord inp d) :
    (inp.key.bind fun key => findReplay hash d key inp) = none := by
  rw [Option.bind_eq_none_iff]
  intro key hkey
  unfold findReplay
  rw [hnew key hkey]
  rfl

/-- While nothing is recorded under its key, the call is not answered from there. -/
theorem stmt_unanswered (hnew : NoRecord inp d) (hl : Loc hash d₀ i d pc) (hfair : Fair d₀ pc)
    (hin : pc.input = some inp ∨ pc = .idle) (hu : Unanswered pc)
    (h : stmt hash i d pc a = some (d', pc')) : Unanswered pc' ∨ pc'.input ≠ some inp := by
  have same : ∀ q : Pc, q.input = some inp ∨ q = .idle → ∀ inp', q.input = some inp' →
      inp' = inp := by
    rintro q (hq | rfl) inp' hq'
    · exact Option.some.inj (hq'.symm.trans hq)
    · cases hq'
  cases stmt_branch h with
  | stored hr =>
      obtain rfl := same _ hin _ rfl
      rw [findReplay_none hnew] at hr
      cases hr
  | @conflict inp' _ _ key hkey hsome =>
      -- the row would be a committed one
      obtain rfl := same _ hin _ rfl
      have hview := (hl.drafted (fun hr => hr)).records.view key
      change (d.records key).view i = (d.records key).base at hview
      rw [hview, hnew key hkey] at hsome
      cases hsome
  | commit => exact Or.inl rfl
  | replays => exact hu.elim
  | fails => exact Or.inl (Fails.ofKey hfair)
  | replayed _ => exact hu.elim
  | gone _ => exact hu.elim
  | _ => exact Or.inl trivial

/-- A statement that commits ends its call. -/
theorem stmt_uncommitted (h : stmt hash i d pc a = some (d', pc')) (hopen : ¬ pc'.Ended) :
    Uncommitted d d' := by
  rcases (stmt_effect h).cases_commit with hu | ⟨sale, hc, rfl⟩ | ⟨o, status, -, rfl, -⟩
  · exact hu
  · refine absurd ?_ hopen
    cases hc <;> exact ⟨id, by simp⟩
  · exact absurd ⟨id, by simp⟩ hopen

/-- A call that is over takes no step. -/
theorem stmt_ended (h : stmt hash i d pc a = some (d', pc')) : ¬ pc.Ended := by
  rintro ⟨hopen, hidle⟩
  rcases stmt_action h with rfl | rfl | rfl
  · cases pc <;> first | exact hopen trivial | exact hidle rfl | simp [stmt] at h
  · cases pc <;> first | exact hopen trivial | exact hidle rfl | simp [stmt, Pc.Open] at h
  · exact hidle rfl

omit [DecidableEq η] in
/-- A key without record has none after a step that commits nothing. -/
theorem NoRecord.uncommitted (h : NoRecord inp d) (hu : Uncommitted d d') : NoRecord inp d' := by
  intro k hk
  rw [hu.records k]
  exact h k hk

omit [DecidableEq η] in
/-- Another call's COMMIT that is not under the key leaves it without a record. -/
theorem NoRecord.commit {j : ℕ} (h : NoRecord inp s.shared) (hl : Loc hash d₀ j s.shared (s.proc j))
    (hok : Unclaimed inp i s (.call j .run)) (hji : j ≠ i) (hopen : ¬ (s.proc i).Ended)
    {sale : Sale} (hc : Commits j (s.proc j) sale pc') :
    NoRecord inp (s.shared.commitSale j sale) := by
  intro k hk
  change (s.shared.records.commit j k).base = none
  rw [(hl.commit_records hc).2 k]
  · exact h k hk
  · intro hkey
    generalize hpc : s.proc j = pc at hc
    cases hc with
    | @place inp' at₀ order row =>
        exact hopen (hok j inp' at₀ order row k rfl hji hpc hk hkey)
    | checkout => cases hkey

/-! ## Runs -/

/-- Call `i`, if it answers the request, has found nothing under its key. -/
structure Alone (hash : Request → η) (d₀ : Db η) (inp : PlaceOrderInput) (i : ℕ) (s : St η) :
    Prop where
  judged : Judged hash d₀ s
  noRecord : ¬ (s.proc i).Ended → NoRecord inp s.shared
  unanswered : (s.proc i).input = some inp → Unanswered (s.proc i)

/-- A step of the call keeps it alone with its key. -/
theorem Alone.own {a : Stmt} {p : Pc} (h₀ : Init d₀) (h : Alone hash d₀ inp i s)
    (hst : stmt hash i s.shared (s.proc i) a = some (d, p)) :
    Alone hash d₀ inp i ⟨d, Function.update s.proc i p⟩ := by
  have hnew : NoRecord inp s.shared := h.noRecord (stmt_ended hst)
  have hproc : Function.update s.proc i p i = p := Function.update_self _ _ _
  refine ⟨h.judged.next h₀ (Procs.next_of_stmt hst), ?_, ?_⟩
  · intro hopen
    change ¬ (Function.update s.proc i p i).Ended at hopen
    rw [hproc] at hopen
    exact hnew.uncommitted (stmt_uncommitted hst hopen)
  · change (Function.update s.proc i p i).input = _ → Unanswered (Function.update s.proc i p i)
    rw [hproc]
    intro hin
    have hbefore : (s.proc i).input = some inp ∨ s.proc i = .idle := by
      by_cases hidle : s.proc i = .idle
      · exact Or.inr hidle
      · rcases stmt_input hst hidle with hsame | ⟨-, rfl⟩
        · exact Or.inl (hsame ▸ hin)
        · cases hin
    have hu : Unanswered (s.proc i) := by
      rcases hbefore with hsome | hidle
      · exact h.unanswered hsome
      · rw [hidle]
        trivial
    exact (stmt_unanswered hnew (h.judged.known.2 i) (h.judged.fair i) hbefore hu hst).resolve_right
      fun hne => hne hin

/-- A step of another call keeps it so, as long as that one does not claim the key. -/
theorem Alone.other {a : Stmt} {p : Pc} {j : ℕ} (h₀ : Init d₀) (h : Alone hash d₀ inp i s)
    (hok : Unclaimed inp i s (.call j a)) (hji : j ≠ i)
    (hst : stmt hash j s.shared (s.proc j) a = some (d, p)) :
    Alone hash d₀ inp i ⟨d, Function.update s.proc j p⟩ := by
  have hproc : Function.update s.proc j p i = s.proc i := Function.update_of_ne hji.symm _ _
  refine ⟨h.judged.next h₀ (Procs.next_of_stmt hst), ?_, ?_⟩
  · intro hopen
    change ¬ (Function.update s.proc j p i).Ended at hopen
    rw [hproc] at hopen
    have hnew := h.noRecord hopen
    have hl := h.judged.known.2 j
    rcases (stmt_effect hst).cases_commit with hu | ⟨sale, hc, rfl⟩ | ⟨o, status, hpc, -, rfl⟩
    · exact hnew.uncommitted hu
    · obtain rfl : a = .run := by
        rcases stmt_action hst with rfl | rfl | hidle
        · rfl
        · obtain ⟨-, rfl⟩ := stmt_abort hst
          generalize s.proc j = pc at hc
          cases hc
        · rw [hidle] at hc
          cases hc
      exact hnew.commit hl hok hji hopen hc
    · rw [hpc] at hl
      obtain ⟨-, -, -, hrecords⟩ := hl.commit_status
      intro k hk
      exact (hrecords k).trans (hnew k hk)
  · change (Function.update s.proc j p i).input = _ → Unanswered (Function.update s.proc j p i)
    rw [hproc]
    exact h.unanswered

/-- Every step of a run in which nobody else claims the key keeps the call alone with it. -/
theorem Alone.next (h₀ : Init d₀) (h : Alone hash d₀ inp i s) (hok : Unclaimed inp i s l)
    (hn : (machine hash).next s l = some t) : Alone hash d₀ inp i t := by
  cases l with
  | call j a =>
      obtain ⟨d, p, hst, rfl⟩ := Procs.next_call hn
      by_cases hji : j = i
      · subst hji
        exact h.own h₀ hst
      · exact h.other h₀ hok hji hst
  | env dt =>
      have hjudged := h.judged.next h₀ hn
      obtain ⟨d, hd, rfl⟩ := Procs.next_env hn
      cases hd
      exact ⟨hjudged, h.noRecord, h.unanswered⟩

/-- The answer is about the stock. -/
def ShortOfStock (result : Except Thrown PlaceOrderResult) : Prop :=
  ∃ p, result = .error (shortOfStock p)

/-- The same answer, but for the id of the order and its time. -/
def Alike : Except Thrown PlaceOrderResult → Except Thrown PlaceOrderResult → Prop
  | .ok res, .ok res' => res.status = res'.status ∧ res.replayed = res'.replayed ∧
      res.body.items = res'.body.items ∧ res.body.totalCents = res'.body.totalCents
  | .error err, .error err' => err = err'
  | _, _ => False

/-- What a request is answered if nobody else uses its key. -/
def Judgement (d₀ : Db η) (inp : PlaceOrderInput) (result : Except Thrown PlaceOrderResult) :
    Prop :=
  ShortOfStock result ∨
    match result with
    | .error err => verdict d₀ inp = .error err
    | .ok res => res.replayed = false ∧ res.status = 201 ∧ verdict d₀ inp = .ok res.body.items ∧
        res.body.totalCents = totalOf res.body.items

section

omit [DecidableEq η]

/-- A call alone with its key is answered with what it deserves, or for want of stock. -/
theorem Alone.judgement {result : Except Thrown PlaceOrderResult} (h : Alone hash d₀ inp i s)
    (hq : ∀ item ∈ inp.items, 0 ≤ item.quantity) (hpc : s.proc i = .placed inp result) :
    Judgement d₀ inp result := by
  have hfair := h.judged.fair i
  have hu := h.unanswered (by rw [hpc]; rfl)
  rw [hpc] at hfair hu
  cases result with
  | ok res => exact Or.inr ⟨hu, hfair hu⟩
  | error err =>
      rcases hfair with (⟨p, rfl⟩ | hverdict | ⟨-, item, hitem, hneg⟩) | hkey
      · exact Or.inl ⟨p, rfl⟩
      · exact Or.inr hverdict
      · exact absurd (hq item hitem) (by omega)
      · exact absurd hkey hu

/-- Two answers of one judgement are alike, unless one is for want of stock. -/
theorem Judgement.alike {result result' : Except Thrown PlaceOrderResult}
    (h : Judgement d₀ inp result) (h' : Judgement d₀ inp result') :
    ShortOfStock result ∨ ShortOfStock result' ∨ Alike result result' := by
  rcases h with hshort | h
  · exact Or.inl hshort
  rcases h' with hshort | h'
  · exact Or.inr (Or.inl hshort)
  refine Or.inr (Or.inr ?_)
  cases result with
  | error err =>
      cases result' with
      | error err' => exact Except.error.inj (h.symm.trans h')
      | ok res' => cases h.symm.trans h'.2.2.1
  | ok res =>
      cases result' with
      | error err' => cases h.2.2.1.symm.trans h'
      | ok res' =>
          obtain ⟨hr, hs, hv, htotal⟩ := h
          obtain ⟨hr', hs', hv', htotal'⟩ := h'
          have hitems : res.body.items = res'.body.items := Except.ok.inj (hv.symm.trans hv')
          exact ⟨hs.trans hs'.symm, hr.trans hr'.symm, hitems, by rw [htotal, htotal', hitems]⟩

end

/-- In a run in which no other call commits an order under the key of a request before it has
ended, the request is not answered from under its key, and it is answered as in every other such
run, stock, order ids and times apart. -/
theorem keys_kept_apart {s₀ : St η} {as as' : List Label} {i' : ℕ}
    {result result' : Except Thrown PlaceOrderResult} (hinit : (machine hash).Init s₀)
    (hq : ∀ item ∈ inp.items, 0 ≤ item.quantity) (hnew : NoRecord inp s₀.shared)
    (hr : (machine hash).Run (Unclaimed inp i) s₀ as s) (hpc : s.proc i = .placed inp result)
    (hr' : (machine hash).Run (Unclaimed inp i') s₀ as' t)
    (hpc' : t.proc i' = .placed inp result') :
    (∀ msg, result ≠ .error (.http 422 msg)) ∧
    (∀ res, result = .ok res → res.status = 201 ∧ res.replayed = false) ∧
    (ShortOfStock result ∨ ShortOfStock result' ∨ Alike result result') := by
  have hstart : ∀ i, Alone hash s₀.shared inp i s₀ := by
    intro i
    refine ⟨Judged.init hinit, fun _ => hnew, ?_⟩
    rw [hinit.2 i]
    intro h
    cases h
  have hall : ∀ {i s as}, (machine hash).Run (Unclaimed inp i) s₀ as s →
      Alone hash s₀.shared inp i s := by
    intro i s as hr
    exact hr.invariant (P := Alone hash s₀.shared inp i)
      (fun _ _ _ hok hn h => h.next hinit.1 hok hn) (hstart i)
  have hj := (hall hr).judgement hq hpc
  have hj' := (hall hr').judgement hq hpc'
  refine ⟨?_, ?_, hj.alike hj'⟩
  · rintro msg rfl
    rcases hj with ⟨p, hshort⟩ | hverdict
    · cases hshort
    · exact verdict_ofKey hverdict trivial
  · rintro res rfl
    rcases hj with ⟨p, hshort⟩ | ⟨hreplayed, hstatus, -, -⟩
    · cases hshort
    · exact ⟨hstatus, hreplayed⟩

/-! ## Two users -/

def twoUsers : St Request :=
  { shop with
    shared :=
      { shop.shared with
        users := Table.ofBase fun u => if u = 7 ∨ u = 8 then some ⟨2000⟩ else none } }

/-- The concrete start is a proper one: two users, one product. -/
theorem twoUsers_init : (machine id).Init twoUsers := by
  obtain ⟨⟨hp, -, ho, hr, hstock, -, hfresh, hitems, houtbox, hjobs, hledger⟩, hidle⟩ :=
    shop_init id
  refine ⟨⟨hp, fun _ => rfl, ho, hr, hstock, ?_, hfresh, hitems, houtbox, hjobs, hledger⟩, hidle⟩
  intro u r hu
  change (if u = 7 ∨ u = 8 then some ⟨2000⟩ else none) = some r at hu
  split at hu
  · cases hu
    decide
  · cases hu

/-- User 8 buys one piece. -/
def onePiece (key : String) : PlaceOrderInput := ⟨8, [⟨1, 1⟩], some "PL", some key⟩

/-- The request of user 7 is answered 422 after user 8 has used its key, and 201 without that
call. -/
theorem keys_kept_apart_shared : ∃ s t : St Request,
    (machine id).exec (fun _ _ => true) twoUsers (.call 0 (.placeOrder (onePiece "k-1")) ::
      runs 0 9 ++ .call 1 (.placeOrder twoPieces) :: runs 1 1) = some s ∧
    s.proc 1 = .placed twoPieces
      (.error (.http 422 "Idempotency-Key was already used with a different request")) ∧
    (machine id).exec (fun _ _ => true) twoUsers (.call 1 (.placeOrder twoPieces) :: runs 1 9) =
      some t ∧
    ∃ body, t.proc 1 = .placed twoPieces (.ok ⟨201, body, false⟩) :=
  ⟨_, _, rfl, rfl, rfl, _, rfl⟩

/-- `Unclaimed`, as a check. -/
def isUnclaimed (inp : PlaceOrderInput) (i : ℕ) (s : St η) : Label → Bool
  | .call j .run =>
      j = i || match s.proc j with
        | .commit inp' _ _ _ => inp.key.isNone || inp'.key ≠ inp.key
        | _ => true
  | _ => true

omit [DecidableEq η] in
theorem isUnclaimed_ok (inp : PlaceOrderInput) (i : ℕ) (s : St η) (l : Label)
    (h : isUnclaimed inp i s l = true) : Unclaimed inp i s l := by
  rintro j inp' at₀ order row k rfl hji hpc hk hk'
  simp [isUnclaimed, hpc, hji, hk, hk'] at h

/-- Each user has a key of their own. -/
theorem keys_kept_apart_own : ∃ (s t : St Request) (result result' : Except Thrown PlaceOrderResult),
    (machine id).exec (isUnclaimed twoPieces 1) twoUsers (.call 0 (.placeOrder (onePiece "k-8")) ::
      runs 0 4 ++ .call 1 (.placeOrder twoPieces) :: runs 0 5 ++ runs 1 9) = some s ∧
    s.proc 1 = .placed twoPieces result ∧
    (machine id).exec (isUnclaimed twoPieces 1) twoUsers
      (.call 1 (.placeOrder twoPieces) :: runs 1 9) = some t ∧
    t.proc 1 = .placed twoPieces result' ∧ Alike result result' := by
  have hrun : ∃ (s t : St Request) (body body' : ResponseBody),
      (machine id).exec (isUnclaimed twoPieces 1) twoUsers
        (.call 0 (.placeOrder (onePiece "k-8")) ::
          runs 0 4 ++ .call 1 (.placeOrder twoPieces) :: runs 0 5 ++ runs 1 9) = some s ∧
      s.proc 1 = .placed twoPieces (.ok ⟨201, body, false⟩) ∧
      (machine id).exec (isUnclaimed twoPieces 1) twoUsers
        (.call 1 (.placeOrder twoPieces) :: runs 1 9) = some t ∧
      t.proc 1 = .placed twoPieces (.ok ⟨201, body', false⟩) :=
    ⟨_, _, _, _, rfl, rfl, rfl, rfl⟩
  obtain ⟨s, t, body, body', hexec, hpc, hexec', hpc'⟩ := hrun
  have hr := Machine.exec_run (isUnclaimed_ok twoPieces 1) hexec
  have hr' := Machine.exec_run (isUnclaimed_ok twoPieces 1) hexec'
  refine ⟨s, t, _, _, hexec, hpc, hexec', hpc', ?_⟩
  obtain ⟨-, -, ⟨p, hshort⟩ | ⟨p, hshort⟩ | halike⟩ :=
    keys_kept_apart twoUsers_init (by decide) (fun _ _ => rfl) hr hpc hr' hpc'
  · cases hshort
  · cases hshort
  · exact halike

end Marketplace.Orders
