import Marketplace.Orders.Conservation
import Marketplace.Sse.Resume

/-!
# Sse.Agreement — the event stream and the stored status

`updateStatus` publishes when it hears that its save is through, and that may be after a later
save has been heard of. The machine here is that of the orders with one more step, `hear`: the
reply of a call's save arrives and the call publishes, in one go.

`latest` is the call whose save of the order took effect last. A save takes effect at its
COMMIT, or, where the row already has the status, when `save` finds that.
-/

namespace Marketplace.Sse

open Core Orders
open Auth (AccessClaims)
open Outbox (Line PlacedOrder)

variable {η : Type} [DecidableEq η] {hash : Request → η}

/-- The text of a status in the database and in the API. -/
def statusText : OrderStatus → String
  | .pending => "pending"
  | .completed => "completed"
  | .cancelled => "cancelled"
  | .refunded => "refunded"

/-! ## Calls that publish -/

/-- The calls with the service they publish on. -/
structure Shop (η : Type) where
  calls : Orders.St η
  service : OrderEventsService
  /-- The order and the status each `updateStatus` was called with. -/
  asked : ℕ → Option (OrderId × OrderStatus)
  heard : ℕ → Bool
  latest : OrderId → Option ℕ

inductive Move where
  | step (l : Orders.Label)
  | hear (i : ℕ)

def asks (asked : ℕ → Option (OrderId × OrderStatus)) :
    Orders.Label → ℕ → Option (OrderId × OrderStatus)
  | .call i (.updateStatus id status _) => Function.update asked i (some (id, status))
  | _ => asked

/-- The order whose save the call has brought through. -/
def savedBy : Pc → Option OrderId
  | .statusSet (.ok id) => some id
  | _ => none

def takesEffect (latest : OrderId → Option ℕ) (t : Orders.St η) : Orders.Label → OrderId → Option ℕ
  | .call i _ => fun id => if savedBy (t.proc i) = some id then some i else latest id
  | .env _ => latest

variable (hash) in
def Shop.next (s : Shop η) : Move → Option (Shop η)
  | .step l =>
      ((Orders.machine hash).next s.calls l).map fun t =>
        { s with calls := t, asked := asks s.asked l, latest := takesEffect s.latest t l }
  | .hear i =>
      match savedBy (s.calls.proc i), s.asked i with
      | some id, some (_, status) =>
          let r := s.service.publish id (statusText status) s.calls.shared.now
          if s.heard i then none
          else some { s with service := r.1, heard := Function.update s.heard i true }
      | _, _ => none

/-- A process over any tables, with no call begun. -/
structure Shop.Init (s : Shop η) : Prop where
  calls : (Orders.machine hash).Init s.calls
  service : s.service = .empty
  asked : ∀ i, s.asked i = none
  heard : ∀ i, s.heard i = false
  latest : ∀ o, s.latest o = none

variable (hash) in
def shopMachine : Machine (Shop η) Move := ⟨@Shop.Init η _ hash, Shop.next hash⟩

/-- The last event published for the order. -/
def Shop.lastEvent (s : Shop η) (o : OrderId) : Option OrderStatusEvent :=
  ((s.service.buffers o).getD []).getLast?

def Shop.stored (s : Shop η) (o : OrderId) : Option OrderStatus :=
  ((s.calls.shared.orders o).base).map Order.status

/-- The call has ended: it has published, or it has thrown. -/
def Shop.Finished (s : Shop η) (i : ℕ) : Prop :=
  match s.calls.proc i with
  | .statusSet (.ok _) => s.heard i = true
  | .statusSet (.error _) | .aborted => True
  | _ => False

/-- Every `updateStatus` of the order has ended. -/
def Shop.Quiet (s : Shop η) (o : OrderId) : Prop :=
  ∀ i status, s.asked i = some (o, status) → s.Finished i

/-- No call hears of its save after the latest save of its order has been heard of, unless
that one stored the same status. -/
def InTime (s : Shop η) : Move → Prop
  | .step _ => True
  | .hear i => ∀ o status j, s.asked i = some (o, status) → s.latest o = some j →
      s.heard j = true → s.stored o = some status

/-! ## The statements of updateStatus -/

section

variable {i : ℕ} {d d' : Db η} {pc pc' : Pc} {a : Stmt}

/-- The call is not changing a status and has not changed one. -/
def Other : Pc → Prop
  | .statusFind _ _ _ | .statusSave _ _ | .statusUpdate _ _ | .statusCommit _ _
  | .statusSet (.ok _) => False
  | _ => True

/-- What a statement does for `updateStatus`. -/
inductive OnStatus (i : ℕ) (d : Db η) : Pc → Stmt → Db η → Pc → Prop
  | begins {id : OrderId} {status : OrderStatus} {viewer : AccessClaims} :
      OnStatus i d .idle (.updateStatus id status viewer) d (.statusFind id status viewer)
  | finds {id : OrderId} {status : OrderStatus} {viewer : AccessClaims} :
      OnStatus i d (.statusFind id status viewer) .run d (.statusSave id status)
  | same {id : OrderId} {status : OrderStatus} {row : Order} :
      (d.orders id).base = some row → row.status = status →
      OnStatus i d (.statusSave id status) .run d (.statusSet (.ok id))
  | differs {id : OrderId} {status : OrderStatus} {row : Order} :
      (d.orders id).base = some row →
      OnStatus i d (.statusSave id status) .run d (.statusUpdate id status)
  | gone {id : OrderId} {status : OrderStatus} : (d.orders id).view i = none →
      OnStatus i d (.statusUpdate id status) .run d (.statusSet (.ok id))
  | writes {id : OrderId} {status : OrderStatus} {d' : Db η} :
      OnStatus i d (.statusUpdate id status) .run d' (.statusCommit id status)
  | commits {id : OrderId} {status : OrderStatus} :
      OnStatus i d (.statusCommit id status) .run (d.commit i) (.statusSet (.ok id))
  | other {pc pc' : Pc} {a : Stmt} {d' : Db η} : Other pc' →
      (∀ id status viewer, a ≠ .updateStatus id status viewer) → OnStatus i d pc a d' pc'

/-- Every statement is one of the ways of `OnStatus`: a PATCH begins, compares, writes and
commits, and all other calls leave statuses alone. -/
theorem stmt_status (h : stmt hash i d pc a = some (d', pc')) : OnStatus i d pc a d' pc' := by
  cases stmt_branch h with
  | updateStatus => exact .begins
  | statusFound => exact .finds
  | saveSame hrow hsame => exact .same hrow hsame
  | saveDiffers hrow _ => exact .differs hrow
  | updateGone hnone => exact .gone hnone
  | update _ _ => exact .writes
  | statusCommit => exact .commits
  -- a refusal, a crash, or one of the other two paths
  | _ => exact .other trivial fun _ _ _ => by simp

/-- A save that is through is the end of the call's statements. -/
theorem stmt_saved {o : OrderId} (h : savedBy pc = some o) : stmt hash i d pc a = none := by
  cases pc with
  | statusSet result => cases a <;> simp [stmt, Pc.Open]
  | _ => cases h

/-- Only its own COMMIT changes the status of an order. -/
theorem stored_cases {d₀ : Db η} (hl : Loc hash d₀ i d pc) (he : Effect hash i d pc d' pc')
    (o : OrderId) :
    (d'.orders o).base.map Order.status = (d.orders o).base.map Order.status ∨
    (d.orders o).base = none ∨
    ∃ status, pc = .statusCommit o status ∧ pc' = .statusSet (.ok o) ∧
      (d'.orders o).base.map Order.status = some status := by
  rcases he.cases_commit with hu | ⟨sale, hc, rfl⟩ | ⟨o', status, rfl, rfl, rfl⟩
  · left
    rw [hu.orders o]
  · obtain ⟨hnone, -, -, hother⟩ := hl.commit_orders hc
    by_cases ho : o = sale.order.orderId
    · rw [ho]
      exact Or.inr (Or.inl hnone)
    · left
      exact congrArg (Option.map Order.status) (hother o ho)
  · obtain ⟨-, -, horders, -⟩ := hl.commit_status
    change (d.orders.commit i o).base.map Order.status = _ ∨ _
    by_cases ho : o = o'
    · subst ho
      obtain ⟨row, hrow⟩ := Option.isSome_iff_exists.mp (hl.status o status rfl)
      refine Or.inr (Or.inr ⟨status, rfl, rfl, ?_⟩)
      change (d.orders.commit i o).base.map Order.status = _
      rw [horders o, hrow]
      simp
    · left
      rw [horders o]
      cases (d.orders o).base with
      | none => rfl
      | some row => simp [ho]

end

/-! ## The stream and the table -/

/-- What an `updateStatus` under way is to store. -/
def setting : Pc → Option (OrderId × OrderStatus)
  | .statusFind o status _ | .statusSave o status | .statusUpdate o status
  | .statusCommit o status => some (o, status)
  | _ => none

/-- The latest save of an order stored its status, and once it has been heard of, the last event
of the order says so. -/
structure Agrees (hash : Request → η) (d₀ : Db η) (s : Shop η) : Prop where
  known : Procs.Holds (Inv hash d₀) (Loc hash d₀) s.calls
  asked : ∀ i o status, setting (s.calls.proc i) = some (o, status) →
    s.asked i = some (o, status)
  row : ∀ i o status, s.calls.proc i = .statusUpdate o status → (s.stored o).isSome
  saved : ∀ i o, savedBy (s.calls.proc i) = some o →
    (∃ status, s.asked i = some (o, status)) ∧ (s.latest o).isSome
  latest : ∀ o i, s.latest o = some i → savedBy (s.calls.proc i) = some o ∧
    ∃ status, s.asked i = some (o, status) ∧ s.stored o = some status
  heard : ∀ i, s.heard i = true → (savedBy (s.calls.proc i)).isSome
  told : ∀ o i status, s.latest o = some i → s.heard i = true → s.stored o = some status →
    ∃ e, s.lastEvent o = some e ∧ e.status = statusText status
  untold : ∀ o, s.latest o = none → s.lastEvent o = none

section

variable {d₀ d : Db η} {s t : Shop η} {i j : ℕ} {a : Stmt} {p : Pc} {o : OrderId}

/-- The shop after a statement of call `i`. -/
def Shop.after (s : Shop η) (i : ℕ) (a : Stmt) (d : Db η) (p : Pc) : Shop η :=
  let calls : Orders.St η := ⟨d, Function.update s.calls.proc i p⟩
  { s with
    calls
    asked := asks s.asked (.call i a)
    latest := takesEffect s.latest calls (.call i a) }

section

omit [DecidableEq η]

theorem Shop.after_proc_ne (h : j ≠ i) : (s.after i a d p).calls.proc j = s.calls.proc j :=
  Function.update_of_ne h _ _

theorem Shop.after_proc : (s.after i a d p).calls.proc i = p := Function.update_self _ _ _

theorem Shop.after_latest : (s.after i a d p).latest o =
    if savedBy p = some o then some i else s.latest o := by
  change (if savedBy (Function.update s.calls.proc i p i) = some o then _ else _) = _
  rw [Function.update_self]

/-- A step of one call changes no other call's answer to what it asked for. -/
theorem Shop.after_asked_ne (h : j ≠ i) : (s.after i a d p).asked j = s.asked j := by
  change asks s.asked (.call i a) j = s.asked j
  cases a with
  | updateStatus id status viewer => exact Function.update_of_ne h _ _
  | _ => rfl

end

/-- What is stored after a statement: what was stored before, or what the statement is the
COMMIT of. -/
theorem Agrees.stored (h : Agrees hash d₀ s)
    (hst : stmt hash i s.calls.shared (s.calls.proc i) a = some (d, p)) {status : OrderStatus}
    (hs : s.stored o = some status) :
    (s.after i a d p).stored o = some status ∨ savedBy p = some o := by
  rcases stored_cases (h.known.2 i) (stmt_effect hst) o with heq | hnone | ⟨st, -, hp, -⟩
  · exact Or.inl (heq.trans hs)
  · unfold Shop.stored at hs
    rw [hnone] at hs
    cases hs
  · right
    rw [hp]
    rfl

/-- A statement that brings a save through leaves what was asked in the table. -/
theorem Agrees.effective (h : Agrees hash d₀ s)
    (hst : stmt hash i s.calls.shared (s.calls.proc i) a = some (d, p))
    (hp : savedBy p = some o) :
    ∃ status, (s.after i a d p).asked i = some (o, status) ∧
      (s.after i a d p).stored o = some status := by
  have hon := stmt_status hst
  have hasked := h.asked i
  have hrow := h.row i
  have hl := h.known.2 i
  generalize s.calls.proc i = pc at hon hasked hrow hl
  -- the save goes through where nothing had to change, or at the COMMIT
  cases hon with
  | begins | finds | differs | writes => cases hp
  | @same id status row hbase hstatus =>
      obtain rfl : id = o := Option.some.inj hp
      refine ⟨status, hasked id status rfl, ?_⟩
      change ((s.calls.shared.orders id).base).map Order.status = some status
      rw [hbase, Option.map_some, hstatus]
  | @gone id status hview =>
      -- orders are never deleted
      have hsome := hrow id status rfl
      have hbase := (hl.drafted (fun hr => hr)).orders.view id
      rw [hview] at hbase
      unfold Shop.stored at hsome
      change none = (s.calls.shared.orders id).base at hbase
      rw [← hbase] at hsome
      cases hsome
  | @commits id status =>
      obtain rfl : id = o := Option.some.inj hp
      refine ⟨status, hasked id status rfl, ?_⟩
      obtain ⟨-, -, horders, -⟩ := hl.commit_status
      obtain ⟨row, hbase⟩ := Option.isSome_iff_exists.mp (hl.status id status rfl)
      change ((s.calls.shared.orders.commit i id).base).map Order.status = some status
      rw [horders id, hbase]
      simp
  | other hother =>
      cases p with
      | statusSet result =>
          cases result with
          | ok id => exact hother.elim
          | error err => cases hp
      | _ => cases hp

/-- What was asked of a call stays what it was asked. -/
theorem Agrees.asking (h : Agrees hash d₀ s)
    (hst : stmt hash i s.calls.shared (s.calls.proc i) a = some (d, p)) {status : OrderStatus}
    (hp : setting p = some (o, status)) : (s.after i a d p).asked i = some (o, status) := by
  have hon := stmt_status hst
  have hasked := h.asked i
  generalize s.calls.proc i = pc at hon hasked
  cases hon with
  | begins =>
      cases hp
      exact Function.update_self _ _ _
  | finds | differs | writes => exact hasked o status hp
  | same | gone | commits => cases hp
  | other hother =>
      cases p with
      | statusSet result => cases hp
      | _ => first | exact hother.elim | cases hp

/-- The UPDATE is only run where there is a row. -/
theorem stmt_row
    (hst : stmt hash i s.calls.shared (s.calls.proc i) a = some (d, p)) {status : OrderStatus}
    (hp : p = .statusUpdate o status) : ((s.after i a d p).stored o).isSome := by
  have hon := stmt_status hst
  subst hp
  generalize s.calls.proc i = pc at hon
  cases hon with
  | @differs _ _ row hbase =>
      change (((s.calls.shared.orders o).base).map Order.status).isSome
      rw [hbase]
      rfl
  | other hother => exact hother.elim

/-- A step of a call keeps table and stream in agreement: whoever saves last is the latest, and no
one before it is any more. -/
theorem Agrees.call (hinit : Orders.Init d₀) (h : Agrees hash d₀ s)
    (hst : stmt hash i s.calls.shared (s.calls.proc i) a = some (d, p)) :
    Agrees hash d₀ (s.after i a d p) := by
  -- a call whose save is through takes no step
  have hnew : ∀ o, savedBy (s.calls.proc i) ≠ some o := by
    intro o ho
    rw [stmt_saved ho] at hst
    cases hst
  have hkept : ∀ {o j}, s.latest o = some j → j ≠ i := by
    rintro o j hj rfl
    exact hnew o (h.latest o j hj).1
  -- one part a field of `Agrees`; those about other calls hold as before
  refine ⟨?_, ?_, ?_, ?_, ?_, ?_, ?_, ?_⟩
  · have hstep : (Orders.machine hash).next s.calls (.call i a) =
        some ⟨d, Function.update s.calls.proc i p⟩ := Procs.next_of_stmt hst
    exact run_holds hinit (Machine.Run.once hstep) h.known
  · intro j o status hj
    by_cases hji : j = i
    · subst hji
      rw [Shop.after_proc] at hj
      exact h.asking hst hj
    · rw [Shop.after_proc_ne hji] at hj
      rw [Shop.after_asked_ne hji]
      exact h.asked j o status hj
  · intro j o status hj
    by_cases hji : j = i
    · subst hji
      rw [Shop.after_proc] at hj
      exact stmt_row hst hj
    · rw [Shop.after_proc_ne hji] at hj
      obtain ⟨st, hstored⟩ := Option.isSome_iff_exists.mp (h.row j o status hj)
      rcases h.stored hst hstored with hsome | hp
      · rw [hsome]
        rfl
      · obtain ⟨st', -, hsome⟩ := h.effective hst hp
        rw [hsome]
        rfl
  · intro j o hj
    rw [Shop.after_latest]
    by_cases hji : j = i
    · subst hji
      rw [Shop.after_proc] at hj
      obtain ⟨status, hasked, -⟩ := h.effective hst hj
      rw [if_pos hj]
      exact ⟨⟨status, hasked⟩, rfl⟩
    · rw [Shop.after_proc_ne hji] at hj
      rw [Shop.after_asked_ne hji]
      refine ⟨(h.saved j o hj).1, ?_⟩
      split
      · rfl
      · exact (h.saved j o hj).2
  · intro o j hj
    rw [Shop.after_latest] at hj
    split at hj
    · next hp =>
        obtain rfl := Option.some.inj hj
        rw [Shop.after_proc]
        exact ⟨hp, h.effective hst hp⟩
    · next hp =>
        obtain ⟨hsaved, status, hasked, hstored⟩ := h.latest o j hj
        rw [Shop.after_proc_ne (hkept hj), Shop.after_asked_ne (hkept hj)]
        exact ⟨hsaved, status, hasked, (h.stored hst hstored).resolve_right hp⟩
  · intro j hj
    have hsome := h.heard j hj
    by_cases hji : j = i
    · subst hji
      obtain ⟨o, ho⟩ := Option.isSome_iff_exists.mp hsome
      exact absurd ho (hnew o)
    · rwa [Shop.after_proc_ne hji]
  · intro o j status hj hheard hstored
    rw [Shop.after_latest] at hj
    split at hj
    · next hp =>
        obtain rfl := Option.some.inj hj
        obtain ⟨o', ho'⟩ := Option.isSome_iff_exists.mp (h.heard _ hheard)
        exact absurd ho' (hnew o')
    · next hp =>
        obtain ⟨-, st, -, hbefore⟩ := h.latest o j hj
        have hafter := (h.stored hst hbefore).resolve_right hp
        obtain rfl : st = status := Option.some.inj (hafter.symm.trans hstored)
        exact h.told o j st hj hheard hbefore
  · intro o ho
    rw [Shop.after_latest] at ho
    split at ho
    · cases ho
    · exact h.untold o ho

/-! ## Publishing -/

/-- A published event is the last one of its order. -/
theorem publish_last (service : OrderEventsService) (status : String) (now : ℕ) :
    (((service.publish o status now).1.buffers o).getD []).getLast? =
      some (service.publish o status now).2 := by
  simp only [OrderEventsService.publish, Function.update_self, Option.getD_some]
  split
  · next hlen =>
      rw [List.tail_append_of_ne_nil, List.getLast?_concat]
      intro hnil
      rw [hnil] at hlen
      simp [bufferLimit] at hlen
  · exact List.getLast?_concat

/-- The shop after call `i` has heard of its save. -/
def Shop.told (s : Shop η) (i : ℕ) (o : OrderId) (status : OrderStatus) : Shop η :=
  { s with
    service := (s.service.publish o (statusText status) s.calls.shared.now).1
    heard := Function.update s.heard i true }

omit [DecidableEq η] in
theorem Shop.told_heard {status : OrderStatus} (h : j ≠ i) :
    (s.told i o status).heard j = s.heard j :=
  Function.update_of_ne h _ _

/-- A step of the stream publishes the status that a finished PATCH asked for. -/
theorem hear_cases (hn : (shopMachine hash).next s (.hear i) = some t) :
    ∃ o o' status, savedBy (s.calls.proc i) = some o ∧ s.asked i = some (o', status) ∧
      t = s.told i o status := by
  simp only [shopMachine, Shop.next] at hn
  split at hn
  · next o o' status hsaved hasked =>
      split at hn
      · cases hn
      · exact ⟨o, o', status, hsaved, hasked, (Option.some.inj hn).symm⟩
  · cases hn

/-- Publishing in time keeps table and stream in agreement: the event of the latest save is the
latest event. -/
theorem Agrees.hears (h : Agrees hash d₀ s) (hok : InTime s (.hear i))
    (hn : (shopMachine hash).next s (.hear i) = some t) : Agrees hash d₀ t := by
  obtain ⟨o, o', status, hsaved, hasked, rfl⟩ := hear_cases hn
  obtain ⟨⟨status', hasked'⟩, hlatest⟩ := h.saved i o hsaved
  obtain ⟨rfl, rfl⟩ : o' = o ∧ status = status' := by
    rw [hasked] at hasked'
    cases hasked'
    exact ⟨rfl, rfl⟩
  have hother : ∀ o, o ≠ o' → (s.told i o' status).lastEvent o = s.lastEvent o := by
    intro o ho
    unfold Shop.lastEvent Shop.told
    rw [publish_other _ _ _ ho]
  refine ⟨h.known, h.asked, h.row, h.saved, h.latest, ?_, ?_, ?_⟩
  · intro j hj
    by_cases hji : j = i
    · rw [hji]
      exact Option.isSome_of_eq_some hsaved
    · exact h.heard j (by rwa [Shop.told_heard hji] at hj)
  · intro o j st hj hheard hstored
    -- events of other orders are as before
    by_cases ho : o = o'
    · subst ho
      refine ⟨_, publish_last _ _ _, ?_⟩
      change statusText status = statusText st
      have hlast : s.stored o = some status := by
        by_cases hji : j = i
        · subst hji
          obtain ⟨-, st', hasked', hst'⟩ := h.latest o j hj
          rw [hasked] at hasked'
          cases hasked'
          exact hst'
        · refine hok o status j hasked hj ?_
          rwa [Shop.told_heard hji] at hheard
      rw [Option.some.inj (hlast.symm.trans hstored)]
    · rw [hother o ho]
      have hji : j ≠ i := by
        rintro rfl
        have hsaved' := (h.latest o j hj).1
        rw [hsaved] at hsaved'
        exact ho (Option.some.inj hsaved').symm
      exact h.told o j st hj (by rwa [Shop.told_heard hji] at hheard) hstored
  · intro o ho
    have hne : o ≠ o' := by
      rintro rfl
      change s.latest o = none at ho
      rw [ho] at hlatest
      cases hlatest
    rw [hother o hne]
    exact h.untold o ho

/-! ## Whole runs -/

/-- Every step keeps table and stream in agreement, given that events are published in time. -/
theorem Agrees.next {m : Move} (hinit : Orders.Init d₀) (h : Agrees hash d₀ s) (hok : InTime s m)
    (hn : (shopMachine hash).next s m = some t) : Agrees hash d₀ t := by
  cases m with
  | hear i => exact h.hears hok hn
  | step l =>
      simp only [shopMachine, Shop.next, Option.map_eq_some_iff] at hn
      obtain ⟨calls, hcalls, rfl⟩ := hn
      cases l with
      | call i a =>
          obtain ⟨d, p, hst, rfl⟩ := Procs.next_call hcalls
          exact h.call hinit hst
      | env dt =>
          have hknown := run_holds hinit
            (Machine.Run.once hcalls) h.known
          obtain ⟨d, hd, rfl⟩ := Procs.next_env hcalls
          cases hd
          exact ⟨hknown, h.asked, h.row, h.saved, h.latest, h.heard, h.told, h.untold⟩

/-- At the start nothing is saved and nothing published. -/
theorem Agrees.init (h : (shopMachine hash).Init s) : Agrees hash s.calls.shared s := by
  have hidle := h.calls.2
  have hheard : ∀ i, ¬ s.heard i = true := by
    intro i hi
    rw [h.heard i] at hi
    cases hi
  have hlatest : ∀ o i, ¬ s.latest o = some i := by
    intro o i hi
    rw [h.latest o] at hi
    cases hi
  refine ⟨init_holds h.calls, ?_, ?_, ?_, ?_, ?_, ?_, ?_⟩
  · intro i o status hi
    rw [hidle i] at hi
    cases hi
  · intro i o status hi
    rw [hidle i] at hi
    cases hi
  · intro i o hi
    rw [hidle i] at hi
    cases hi
  · intro o i hi
    exact absurd hi (hlatest o i)
  · intro i hi
    exact absurd hi (hheard i)
  · intro o i status hi
    exact absurd hi (hlatest o i)
  · intro o _
    unfold Shop.lastEvent
    rw [h.service]
    rfl

/-- Whenever every `updateStatus` of an order has ended, the last event of the order has the
status that is stored. -/
theorem stream_agrees {s₀ : Shop η} {ms : List Move} (hinit : (shopMachine hash).Init s₀)
    (hr : (shopMachine hash).Run InTime s₀ ms s) :
    ∀ o e, s.Quiet o → s.lastEvent o = some e →
      ∃ status, s.stored o = some status ∧ e.status = statusText status := by
  have h : Agrees hash s₀.calls.shared s :=
    hr.invariant (P := Agrees hash s₀.calls.shared)
      (fun _ _ _ hok hn h => h.next hinit.calls.1 hok hn) (Agrees.init hinit)
  intro o e hquiet he
  cases hlatest : s.latest o with
  | none =>
      rw [h.untold o hlatest] at he
      cases he
  | some i =>
      obtain ⟨hsaved, status, hasked, hstored⟩ := h.latest o i hlatest
      have hheard : s.heard i = true := by
        have hfinished := hquiet i status hasked
        unfold Shop.Finished at hfinished
        unfold savedBy at hsaved
        split at hsaved
        · next heq =>
            rw [heq] at hfinished
            exact hfinished
        · cases hsaved
      obtain ⟨e', he', htext⟩ := h.told o i status hlatest hheard hstored
      obtain rfl : e = e' := Option.some.inj (he.symm.trans he')
      exact ⟨status, hstored, htext⟩

end

/-! ## Two admins -/

/-- The shop with one order, and nobody connected. -/
def oneOrder : Shop Request where
  calls :=
    { shop with
      shared :=
        { shop.shared with
          orders := Table.ofBase fun o =>
            if o = 1 then some ⟨7, .pending, 1000, "PL", 1000000⟩ else none
          nextOrder := 2 } }
  service := .empty
  asked _ := none
  heard _ := false
  latest _ := none

/-- The concrete start is a proper one: one order, nobody under way. -/
theorem oneOrder_init : (shopMachine id).Init oneOrder where
  calls := by
    obtain ⟨⟨hp, hu, -, hr, hstock, hbalance, -, hitems, houtbox, hjobs, hledger⟩, hidle⟩ :=
      shop_init id
    refine ⟨⟨hp, hu, fun _ => rfl, hr, hstock, hbalance, ?_, hitems, houtbox, hjobs, hledger⟩,
      hidle⟩
    intro o ho
    refine if_neg ?_
    rintro rfl
    exact absurd ho (by decide)
  service := rfl
  asked _ := rfl
  heard _ := rfl
  latest _ := rfl

def admin : AccessClaims := ⟨9, .admin, 1, 1, 0⟩

/-- Call 0 completes the order and then call 1 refunds it. -/
def twoSaves : List Move :=
  .step (.call 0 (.updateStatus 1 .completed admin)) ::
  .step (.call 1 (.updateStatus 1 .refunded admin)) ::
  (runs 0 4 ++ runs 1 4).map .step

def bothAsked : ℕ → Option (OrderId × OrderStatus) :=
  Function.update (Function.update (fun _ => none) 0 (some (1, .completed))) 1 (some (1, .refunded))

/-- Once both calls have finished, nothing of the order is under way. -/
theorem quiet_of_both {s : Shop Request} (hasked : s.asked = bothAsked) (h₀ : s.Finished 0)
    (h₁ : s.Finished 1) : s.Quiet 1 := by
  intro i status hi
  rw [hasked, bothAsked, Function.update_apply, Function.update_apply] at hi
  split at hi
  · next hi₁ => rwa [hi₁]
  · split at hi
    · next hi₀ => rwa [hi₀]
    · cases hi

/-- The later save is heard of first: the stream ends with the status that it replaced. -/
theorem stream_agrees_late_reply : ∃ s : Shop Request,
    (shopMachine id).exec (fun _ _ => true) oneOrder (twoSaves ++ [.hear 1, .hear 0]) = some s ∧
    s.Quiet 1 ∧ s.stored 1 = some .refunded ∧
    (s.lastEvent 1).map OrderStatusEvent.status = some "completed" := by
  have hrun : ∃ s : Shop Request,
      (shopMachine id).exec (fun _ _ => true) oneOrder (twoSaves ++ [.hear 1, .hear 0]) = some s ∧
      s.asked = bothAsked ∧ s.Finished 0 ∧ s.Finished 1 ∧ s.stored 1 = some .refunded ∧
      (s.lastEvent 1).map OrderStatusEvent.status = some "completed" :=
    ⟨_, rfl, rfl, rfl, rfl, rfl, rfl⟩
  obtain ⟨s, hexec, hasked, h₀, h₁, hstored, hlast⟩ := hrun
  exact ⟨s, hexec, quiet_of_both hasked h₀ h₁, hstored, hlast⟩

def inTime (s : Shop Request) : Move → Bool
  | .step _ => true
  | .hear i => (s.asked i).all fun (o, status) =>
      (s.latest o).all fun j => !s.heard j || s.stored o = some status

/-- What the concrete run checks is the condition of the theorem. -/
theorem inTime_ok (s : Shop Request) (m : Move) (h : inTime s m = true) : InTime s m := by
  cases m with
  | step l => trivial
  | hear i =>
      intro o status j hasked hlatest hheard
      simpa [inTime, hasked, hlatest, hheard] using h

/-- Two saves, published in their order: the last event has the status of the row. -/
theorem stream_agrees_in_order : ∃ (s : Shop Request) (e : OrderStatusEvent),
    (shopMachine id).exec inTime oneOrder (twoSaves ++ [.hear 0, .hear 1]) = some s ∧
    s.lastEvent 1 = some e ∧ ∃ status, s.stored 1 = some status ∧ e.status = statusText status := by
  have hrun : ∃ s : Shop Request,
      (shopMachine id).exec inTime oneOrder (twoSaves ++ [.hear 0, .hear 1]) = some s ∧
      s.asked = bothAsked ∧ s.Finished 0 ∧ s.Finished 1 ∧ s.lastEvent 1 = some ⟨2, 1, "refunded", 1000000⟩ :=
    ⟨_, rfl, rfl, rfl, rfl, rfl⟩
  obtain ⟨s, hexec, hasked, h₀, h₁, hlast⟩ := hrun
  exact ⟨s, _, hexec, hlast, stream_agrees oneOrder_init (Machine.exec_run inTime_ok hexec) 1 _
    (quiet_of_both hasked h₀ h₁) hlast⟩

end Marketplace.Sse
