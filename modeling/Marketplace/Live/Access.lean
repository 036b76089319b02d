import Marketplace.Live.Gateway
import Marketplace.Orders.Rows

/-!
# Live.Access — an order's events are its owner's

In every run of `Live.Gateway` a socket or a stream is told of orders only that belong to the user
of its own token, and a status that is published was asked for by an admin, or by the owner as a
cancellation (`events_private`). The owner of an order never changes, so what `requireOwner` saw
when the visit came is true for as long as it stays. `room_receives` is the other direction: who
is in the room misses nothing.
-/

namespace Marketplace.Live

open Core Orders
open Auth (AccessClaims UserId)
open Outbox (OrderId)
open Auth.Atomic (Store verify isAccessRevoked unauthorized Sweep)
open Sse (OrderStatusEvent statusText)

variable {η : Type} [DecidableEq η] {dbl : Doubles} {decode : List Char → Option AccessClaims}
  {hash : Request → η} {d₀ : Orders.Db η} {s s₀ t : Site η} {i k : ℕ} {act : Step} {goal : Goal}
  {claims : AccessClaims} {o : OrderId} {visit : Visit} {socket : Socket} {pc pc' : Pc}

/-! ## One step -/

/-- What a step can do. -/
inductive Moves (dbl : Doubles) (decode : List Char → Option AccessClaims) (hash : Request → η)
    (s : Site η) : Step → Site η → Prop
  | auth {call : Auth.Atomic.Call} {w : Sweep} {r : Store × Auth.Atomic.Outcome} :
      Auth.Atomic.step w s.auth call = some r →
      Moves dbl decode hash s (.auth call w) { s with auth := r.1 }
  | order {i : ℕ} {a : Orders.Stmt} {calls : Orders.St η} :
      (∀ id status viewer, a ≠ .updateStatus id status viewer) →
      (Orders.machine hash).next s.calls (.call i a) = some calls →
      Moves dbl decode hash s (.order i a) { s with calls }
  | tick {dt : ℕ} {calls : Orders.St η} : calls.proc = s.calls.proc →
      (Orders.machine hash).next s.calls (.env dt) = some calls →
      Moves dbl decode hash s (.tick dt)
        { s with
          auth := { s.auth with now := s.auth.now + dt }
          calls
          bus := { s.bus with now := s.bus.now + dt } }
  | connect {k : ℕ} {token : Option (List Char)} : s.sockets k = none →
      Moves dbl decode hash s (.connect k token)
        { s with sockets := Function.update s.sockets k (some ⟨token, true, [], []⟩) }
  | disconnect {k : ℕ} {socket : Socket} : s.sockets k = some socket →
      Moves dbl decode hash s (.disconnect k)
        { s with sockets := Function.update s.sockets k (some { socket with connected := false }) }
  | arrive {i : ℕ} {arrival : Arrival} {visit : Visit} : s.visits i = .absent →
      s.arrive decode arrival = some visit →
      Moves dbl decode hash s (.arrive i arrival) (s.put i visit)
  | revoked {i : ℕ} {goal : Goal} {claims : AccessClaims} :
      s.visits i = .checking goal claims →
      Moves dbl decode hash s (.go i) (s.put i (.refused (goal.refuse unauthorized)))
  | passes {i : ℕ} {goal : Goal} {claims : AccessClaims} : s.visits i = .checking goal claims →
      isAccessRevoked claims s.auth = false →
      Moves dbl decode hash s (.go i) (s.put i (.owning goal claims))
  | calls {i : ℕ} {id : OrderId} {status : OrderStatus} {claims : AccessClaims}
      {calls : Orders.St η} : s.visits i = .checking (.updateStatus id status) claims →
      isAccessRevoked claims s.auth = false →
      (Orders.machine hash).next s.calls (.call i (.updateStatus id status claims)) = some calls →
      Moves dbl decode hash s (.go i)
        { s.put i (.inside (.updateStatus id status) claims) with calls }
  | owns {i : ℕ} {goal : Goal} {claims : AccessClaims} : s.visits i = .owning goal claims →
      Moves dbl decode hash s (.go i) (s.put i (s.own goal claims))
  | joins {i k : ℕ} {o : OrderId} {claims : AccessClaims} {socket : Socket} :
      s.visits i = .entering (.join k o) claims → s.sockets k = some socket →
      Moves dbl decode hash s (.go i)
        { s.put i (.inside (.join k o) claims) with
          sockets := Function.update s.sockets k
            (some { socket with rooms := o :: socket.rooms }) }
  | streams {i : ℕ} {o : OrderId} {header : Option Sse.HeaderValue} {claims : AccessClaims}
      {bus : Sse.St} : s.visits i = .entering (.events o header) claims →
      Sse.next dbl s.bus (.connect i o header) = some bus →
      Moves dbl decode hash s (.go i) { s.put i (.inside (.events o header) claims) with bus }
  | hears {i : ℕ} {id o : OrderId} {status : OrderStatus} {claims : AccessClaims}
      {bus : Sse.St} : s.visits i = .inside (.updateStatus id status) claims →
      s.calls.proc i = .statusSet (.ok o) →
      Sse.next dbl s.bus (.publish id (statusText status)) = some bus →
      Moves dbl decode hash s (.hear i)
        { s with
          bus
          heard := Function.update s.heard i true
          sockets := fun k => (s.sockets k).map
            (Socket.emit (s.bus.service.publish id (statusText status) s.bus.now).2) }
  | closes {i : ℕ} {bus : Sse.St} : Sse.next dbl s.bus (.close i) = some bus →
      Moves dbl decode hash s (.close i) { s with bus }

/-- A visit's own step is one of the ways of `Moves`. -/
theorem go_moves (h : s.go dbl hash i = some t) : Moves dbl decode hash s (.go i) t := by
  unfold Site.go at h
  split at h
  · next goal claims hvisit =>
      split at h
      · cases h
        exact .revoked hvisit
      · next hlive =>
          have hpass : isAccessRevoked claims s.auth = false := by simpa using hlive
          unfold Site.pass at h
          split at h
          · obtain ⟨calls, hcalls, rfl⟩ := Option.map_eq_some_iff.mp h
            exact .calls hvisit hpass hcalls
          · cases h
            exact .passes hvisit hpass
  · next hvisit =>
      cases h
      exact .owns hvisit
  · next goal claims hvisit =>
      unfold Site.enter at h
      split at h
      · obtain ⟨socket, hsocket, rfl⟩ := Option.map_eq_some_iff.mp h
        exact .joins hvisit hsocket
      · obtain ⟨bus, hbus, rfl⟩ := Option.map_eq_some_iff.mp h
        exact .streams hvisit hbus
      · cases h
  · cases h

/-- Every step of the site is one of the ways of `Moves`: later proofs split these and unfold
nothing. -/
theorem next_moves (h : (machine dbl decode hash).next s act = some t) :
    Moves dbl decode hash s act t := by
  cases act with
  | auth call w =>
      have hcall : (Auth.Atomic.step w s.auth call).map (fun r => { s with auth := r.1 }) =
          some t := by
        cases call with
        | tick dt => cases h
        | _ => exact h
      obtain ⟨r, hr, rfl⟩ := Option.map_eq_some_iff.mp hcall
      exact .auth hr
  -- a PATCH goes through a visit, every other call of the shop is its own
  | order i a =>
      cases a with
      | updateStatus id status viewer => cases h
      | _ =>
          obtain ⟨calls, hcalls, rfl⟩ := Option.map_eq_some_iff.mp h
          exact .order (by intro id status viewer heq; cases heq) hcalls
  | tick dt =>
      cases h
      exact .tick rfl rfl
  | connect k token =>
      simp only [machine, next] at h
      split at h
      · cases h
      · next hnone =>
          cases h
          exact .connect hnone
  | disconnect k =>
      obtain ⟨socket, hsocket, rfl⟩ := Option.map_eq_some_iff.mp h
      exact .disconnect hsocket
  | arrive i arrival =>
      simp only [machine, next] at h
      split at h
      · next habsent =>
          obtain ⟨visit, hvisit, rfl⟩ := Option.map_eq_some_iff.mp h
          exact .arrive habsent hvisit
      · cases h
  | go i => exact go_moves h
  | hear i =>
      simp only [machine, next, Site.hear] at h
      split at h
      · next hvisit hproc =>
          split at h
          · cases h
          · obtain ⟨bus, hbus, rfl⟩ := Option.map_eq_some_iff.mp h
            exact .hears hvisit hproc hbus
      · cases h
  | close i =>
      obtain ⟨bus, hbus, rfl⟩ := Option.map_eq_some_iff.mp h
      exact .closes hbus

/-! ## What only grows -/

structure Grows (s t : Site η) : Prop where
  issued : ∀ c ∈ s.auth.issued, c ∈ t.auth.issued
  owner : ∀ o u, s.owner o = some u → t.owner o = some u
  inside : ∀ i goal c, s.visits i = .inside goal c → t.visits i = .inside goal c
  token : ∀ k socket, s.sockets k = some socket →
    ∃ socket', t.sockets k = some socket' ∧ socket'.token = socket.token

/-- Tokens are only added to. -/
theorem issued_mono {s s' : Store} {call : Auth.Atomic.Call} {w : Sweep}
    {r : Auth.Atomic.Outcome} (h : Auth.Atomic.step w s call = some (s', r)) :
    ∀ c ∈ s.issued, c ∈ s'.issued := by
  intro c hc
  -- only login and refresh issue tokens, at the end of the list
  cases call with
  | login user =>
      simp only [Auth.Atomic.step] at h
      split at h
      · cases h
        unfold Auth.Atomic.login
        split
        · exact hc
        · exact List.mem_append_left _ hc
      · cases h
  | refresh tok =>
      cases h
      have hcases := Auth.Atomic.refresh_cases tok s
      generalize (Auth.Atomic.refresh tok s).1 = s', (Auth.Atomic.refresh tok s).2 = pair at hcases
      cases hcases with
      | gone | revoked | rejected | reused => exact hc
      | exchanged => exact List.mem_append_left _ hc
  | logout claims =>
      simp only [Auth.Atomic.step] at h
      split at h
      · cases h
        exact hc
      · cases h
  | authenticate token =>
      cases h
      exact hc
  | sweepExpired =>
      simp only [Auth.Atomic.step] at h
      split at h
      · cases h
        exact hc
      · cases h
  | tick dt =>
      cases h
      exact hc

/-- An order never changes hands. -/
theorem owner_kept {x y : Orders.St η} {act : Orders.Label}
    (hx : Procs.Holds (Inv hash d₀) (Loc hash d₀) x)
    (hn : (Orders.machine hash).next x act = some y) {u : UserId}
    (ho : ((x.shared.orders o).base).map Order.userId = some u) :
    ((y.shared.orders o).base).map Order.userId = some u := by
  cases act with
  | env dt =>
      obtain ⟨d, hd, rfl⟩ := Procs.next_env hn
      cases hd
      exact ho
  | call i a =>
      obtain ⟨d, pc, hst, rfl⟩ := Procs.next_call hn
      obtain ⟨row, hrow, rfl⟩ := Option.map_eq_some_iff.mp ho
      obtain ⟨status, hrow'⟩ := row_kept (hx.2 i) (stmt_effect hst) hrow
      change ((d.orders o).base).map Order.userId = _
      rw [hrow']
      rfl

omit [DecidableEq η] in
/-- A visit that has got inside stays where it is. -/
theorem put_inside (hvisit : ∀ goal c, s.visits i ≠ .inside goal c) {j : ℕ}
    {goal : Goal} {c : AccessClaims} (h : s.visits j = .inside goal c) :
    (s.put i visit).visits j = .inside goal c := by
  have hne : j ≠ i := by
    rintro rfl
    exact hvisit goal c h
  exact (Function.update_of_ne hne _ _).trans h

/-- A step of the site grows it: tokens, owners and clients stay, and a socket stays with the
visit that made it. -/
theorem Moves.grows (hknown : Procs.Holds (Inv hash d₀) (Loc hash d₀) s.calls)
    (h : Moves dbl decode hash s act t) : Grows s t := by
  have same : ∀ {s : Site η}, ∀ k socket, s.sockets k = some socket →
      ∃ socket', s.sockets k = some socket' ∧ socket'.token = socket.token :=
    fun k socket hk => ⟨socket, hk, rfl⟩
  -- the other visits stay where they are
  have put : ∀ {i : ℕ} {visit : Visit}, (∀ goal c, s.visits i ≠ .inside goal c) →
      Grows s (s.put i visit) :=
    fun hvisit => ⟨fun _ hc => hc, fun _ _ ho => ho, fun _ _ _ h => put_inside hvisit h, same⟩
  -- visits move alone or with a call; sockets and clients change in their own steps only
  cases h with
  | @auth call w r hstep =>
      exact ⟨issued_mono hstep, fun _ _ ho => ho, fun _ _ _ h => h, same⟩
  | order _ hn =>
      exact ⟨fun _ hc => hc, fun _ _ ho => owner_kept hknown hn ho, fun _ _ _ h => h, same⟩
  | tick _ hn =>
      exact ⟨fun _ hc => hc, fun _ _ ho => owner_kept hknown hn ho, fun _ _ _ h => h, same⟩
  | @connect k token hnone =>
      refine ⟨fun _ hc => hc, fun _ _ ho => ho, fun _ _ _ h => h, ?_⟩
      intro j socket hj
      have hne : j ≠ k := by
        rintro rfl
        rw [hnone] at hj
        cases hj
      exact ⟨socket, (Function.update_of_ne hne _ _).trans hj, rfl⟩
  | @disconnect k socket hsocket =>
      refine ⟨fun _ hc => hc, fun _ _ ho => ho, fun _ _ _ h => h, ?_⟩
      intro j socket' hj
      by_cases hjk : j = k
      · subst hjk
        rw [hsocket] at hj
        obtain rfl := Option.some.inj hj
        exact ⟨_, Function.update_self _ _ _, rfl⟩
      · exact ⟨socket', (Function.update_of_ne hjk _ _).trans hj, rfl⟩
  | arrive habsent => exact put (by simp [habsent])
  | revoked hvisit | passes hvisit | owns hvisit => exact put (by simp [hvisit])
  | calls hvisit _ hn =>
      refine ⟨fun _ hc => hc, fun _ _ ho => owner_kept hknown hn ho, ?_, same⟩
      intro j goal c h
      exact put_inside (by simp [hvisit]) h
  | @joins i k o claims socket hvisit hsocket =>
      refine ⟨fun _ hc => hc, fun _ _ ho => ho, ?_, ?_⟩
      · intro j goal c h
        exact put_inside (by simp [hvisit]) h
      · intro j socket' hj
        by_cases hjk : j = k
        · subst hjk
          rw [hsocket] at hj
          obtain rfl := Option.some.inj hj
          exact ⟨_, Function.update_self _ _ _, rfl⟩
        · exact ⟨socket', (Function.update_of_ne hjk _ _).trans hj, rfl⟩
  | streams hvisit =>
      refine ⟨fun _ hc => hc, fun _ _ ho => ho, ?_, same⟩
      intro j goal c h
      exact put_inside (by simp [hvisit]) h
  | hears =>
      refine ⟨fun _ hc => hc, fun _ _ ho => ho, fun _ _ _ h => h, ?_⟩
      intro k socket hk
      refine ⟨_, congrArg (Option.map _) hk, ?_⟩
      unfold Socket.emit
      split <;> rfl
  | closes => exact ⟨fun _ hc => hc, fun _ _ ho => ho, fun _ _ _ h => h, same⟩

/-! ## What is known of a visit, a call, a socket -/

/-- The token of a join is that of its socket. -/
def FromSocket (decode : List Char → Option AccessClaims) (s : Site η) : Goal → AccessClaims → Prop
  | .join k _, c => ∃ socket, s.sockets k = some socket ∧ socket.token.bind decode = some c
  | _, _ => True

/-- Who watches an order owns it. -/
def Owns (s : Site η) : Goal → AccessClaims → Prop
  | .join _ o, c | .events o _, c => s.owner o = some c.sub
  | .updateStatus _ _, _ => True

def VisitOk (decode : List Char → Option AccessClaims) (s : Site η) : Visit → Prop
  | .absent | .refused _ => True
  | .checking goal c | .owning goal c => c ∈ s.auth.issued ∧ FromSocket decode s goal c
  | .entering goal c | .inside goal c =>
      (c ∈ s.auth.issued ∧ FromSocket decode s goal c) ∧ Owns s goal c

/-- An admin may set any status, the owner may cancel. -/
def Allowed (s : Site η) (c : AccessClaims) (o : OrderId) (status : OrderStatus) : Prop :=
  c.role = .admin ∨ (s.owner o = some c.sub ∧ status = .cancelled)

/-- Visit `i` asked for the status, and may. -/
def Asked (s : Site η) (i : ℕ) (o : OrderId) (status : OrderStatus) : Prop :=
  ∃ c, s.visits i = .inside (.updateStatus o status) c ∧ Allowed s c o status

def CallOk (s : Site η) (i : ℕ) : Pc → Prop
  | .statusFind o status viewer => s.visits i = .inside (.updateStatus o status) viewer
  | .statusSave o status | .statusUpdate o status | .statusCommit o status => Asked s i o status
  | .statusSet (.ok o) => ∃ status, Asked s i o status
  | _ => True

structure SocketOk (visits : ℕ → Visit) (k : ℕ) (socket : Socket) : Prop where
  rooms : ∀ o ∈ socket.rooms, ∃ i c, visits i = .inside (.join k o) c
  received : ∀ e ∈ socket.received, e.orderId ∈ socket.rooms

structure Guarded (decode : List Char → Option AccessClaims) (hash : Request → η)
    (d₀ : Orders.Db η) (s : Site η) : Prop where
  known : Procs.Holds (Inv hash d₀) (Loc hash d₀) s.calls
  visits : ∀ i, VisitOk decode s (s.visits i)
  calls : ∀ i, CallOk s i (s.calls.proc i)
  sockets : ∀ k socket, s.sockets k = some socket → SocketOk s.visits k socket
  clients : ∀ i client, s.bus.clients i = some client →
    ∃ header c, s.visits i = .inside (.events client.orderId header) c
  published : ∀ e ∈ s.bus.published, ∃ i status, Asked s i e.orderId status ∧
    e.status = statusText status

section

omit [DecidableEq η]

/-- A claim that came with a socket's token did so in every later state too. -/
theorem FromSocket.mono (hg : Grows s t) (h : FromSocket decode s goal claims) :
    FromSocket decode t goal claims := by
  cases goal with
  | join k o =>
      obtain ⟨socket, hsocket, htoken⟩ := h
      obtain ⟨socket', hsocket', hsame⟩ := hg.token k socket hsocket
      exact ⟨socket', hsocket', by rw [hsame]; exact htoken⟩
  | events | updateStatus => trivial

/-- Who owns an order owns it for good. -/
theorem Owns.mono (hg : Grows s t) (h : Owns s goal claims) : Owns t goal claims := by
  cases goal with
  | join | events => exact hg.owner _ _ h
  | updateStatus => trivial

/-- What a visit has established stays true while the site grows. -/
theorem VisitOk.mono (hg : Grows s t) (h : VisitOk decode s visit) : VisitOk decode t visit := by
  cases visit with
  | absent | refused => trivial
  | checking | owning => exact ⟨hg.issued _ h.1, h.2.mono hg⟩
  | entering | inside => exact ⟨⟨hg.issued _ h.1.1, h.1.2.mono hg⟩, h.2.mono hg⟩

/-- What a visit asked for, it has asked for. -/
theorem Asked.mono {status : OrderStatus} (hg : Grows s t) (h : Asked s i o status) :
    Asked t i o status := by
  obtain ⟨c, hvisit, hallowed⟩ := h
  refine ⟨c, hg.inside _ _ _ hvisit, ?_⟩
  rcases hallowed with hadmin | ⟨howner, hcancelled⟩
  · exact Or.inl hadmin
  · exact Or.inr ⟨hg.owner _ _ howner, hcancelled⟩

/-- A call that answers a visit does so in every later state too. -/
theorem CallOk.mono (hg : Grows s t) (h : CallOk s i pc) : CallOk t i pc := by
  cases pc with
  | statusFind => exact hg.inside _ _ _ h
  | statusSave | statusUpdate | statusCommit => exact Asked.mono hg h
  | statusSet result =>
      cases result with
      | error => trivial
      | ok o =>
          obtain ⟨status, hasked⟩ := h
          exact ⟨status, hasked.mono hg⟩
  | _ => trivial

/-- A socket's rooms and events stay accounted for while the site grows. -/
theorem SocketOk.mono (hg : Grows s t) (h : SocketOk s.visits k socket) :
    SocketOk t.visits k socket where
  rooms o ho := by
    obtain ⟨i, c, hvisit⟩ := h.rooms o ho
    exact ⟨i, c, hg.inside _ _ _ hvisit⟩
  received := h.received

/-- A call with no status to set. -/
theorem CallOk.of_other (h : Sse.Other pc) : CallOk s i pc := by
  cases pc with
  | statusSet result =>
      cases result with
      | ok => exact h.elim
      | error => trivial
  | statusFind | statusSave | statusUpdate | statusCommit => exact h.elim
  | _ => trivial

end

/-! ## A statement of a call -/

omit [DecidableEq η] in
/-- The checks of `updateStatus`. -/
theorem statusFind_allowed {d : Orders.Db η} {id : OrderId} {status status' : OrderStatus}
    {viewer : AccessClaims} (h : statusFind d id status viewer = .statusSave o status') :
    o = id ∧ status' = status ∧ (viewer.role = .admin ∨
      (((d.orders id).base).map Order.userId = some viewer.sub ∧ status = .cancelled)) := by
  unfold statusFind at h
  split at h
  · cases h
  · next row hrow =>
      split at h
      · cases h
      · next howner =>
          split at h
          · cases h
          · next hcancel =>
              cases h
              refine ⟨rfl, rfl, ?_⟩
              by_cases hadmin : viewer.role = .admin
              · exact Or.inl hadmin
              · right
                rw [hrow]
                simp only [not_and, not_not] at howner hcancel
                exact ⟨congrArg some (howner hadmin), hcancel hadmin⟩

/-- A statement of the call that is no PATCH of another visit leaves it answering its visit. -/
theorem CallOk.run {a : Orders.Stmt} {d' : Orders.Db η}
    (h : CallOk s i pc) (ha : ∀ id status viewer, a ≠ .updateStatus id status viewer)
    (hst : stmt hash i s.calls.shared pc a = some (d', pc')) : CallOk s i pc' := by
  cases Sse.stmt_status hst with
  | begins => exact absurd rfl (ha _ _ _)
  | @finds id status viewer =>
      have hfind : statusFind s.calls.shared id status viewer = .statusSave id status := by
        simp only [stmt, Option.some.injEq, Prod.mk.injEq] at hst
        exact hst.2
      obtain ⟨-, -, hallowed⟩ := statusFind_allowed hfind
      exact ⟨viewer, h, hallowed⟩
  | same | gone | commits => exact ⟨_, h⟩
  | differs | writes => exact h
  | other hother => exact .of_other hother

/-! ## The invariant -/

section

omit [DecidableEq η]

/-- A visit that comes with a token waits with the claims that token carries. -/
theorem admit_ok {token : Option (List Char)}
    (hsocket : ∀ c, token.bind decode = some c → FromSocket decode s goal c) :
    VisitOk decode s (s.authenticating decode goal token) := by
  unfold Site.authenticating
  split
  · trivial
  · trivial
  · next text =>
      split
      · trivial
      · next claims hclaims =>
          obtain ⟨c, hdecode, hverify⟩ := Option.bind_eq_some_iff.mp hclaims
          unfold verify at hverify
          split at hverify
          · next hissued =>
              cases hverify
              exact ⟨hissued.1, hsocket claims hdecode⟩
          · cases hverify

/-- A visit that has just arrived has established nothing and claims nothing. -/
theorem arrive_ok {arrival : Arrival} (h : s.arrive decode arrival = some visit) :
    VisitOk decode s visit := by
  unfold Site.arrive at h
  split at h
  · split at h
    · cases h
    · next socket hsocket =>
        split at h
        · split at h
          · cases h
            trivial
          · cases h
            exact admit_ok fun c hc => ⟨socket, hsocket, hc⟩
        · cases h
  · cases h
    exact admit_ok fun c _ => trivial
  · cases h
    exact admit_ok fun c _ => trivial

/-- What `requireOwner` has seen. -/
theorem own_ok (h : claims ∈ s.auth.issued ∧ FromSocket decode s goal claims) :
    VisitOk decode s (s.own goal claims) := by
  unfold Site.own requireOwner
  split
  · trivial
  · next row hok =>
      split at hok
      · cases hok
      · next order hrow =>
          split at hok
          · cases hok
          · next howner =>
              refine ⟨h, ?_⟩
              have hsub : s.owner goal.order = some claims.sub := by
                unfold Site.owner
                rw [hrow]
                exact congrArg some (not_not.mp howner)
              cases goal with
              | join | events => exact hsub
              | updateStatus => trivial

/-- One visit moves, and nothing else. -/
theorem Guarded.put (h : Guarded decode hash d₀ s) (hg : Grows s (s.put i visit))
    (hvisit : VisitOk decode s visit) : Guarded decode hash d₀ (s.put i visit) where
  known := h.known
  visits := by
    intro j
    by_cases hj : j = i
    · subst hj
      have hself : (s.put j visit).visits j = visit := Function.update_self _ _ _
      rw [hself]
      exact hvisit.mono hg
    · have hother : (s.put i visit).visits j = s.visits j := Function.update_of_ne hj _ _
      rw [hother]
      exact (h.visits j).mono hg
  calls j := (h.calls j).mono hg
  sockets k socket hk := (h.sockets k socket hk).mono hg
  clients j client hj := by
    obtain ⟨header, c, hin⟩ := h.clients j client hj
    exact ⟨header, c, hg.inside _ _ _ hin⟩
  published e he := by
    obtain ⟨j, status, hasked, htext⟩ := h.published e he
    exact ⟨j, status, hasked.mono hg, htext⟩

end

/-- The calls take a step, and nothing else. -/
theorem Guarded.called (hinit : Orders.Init d₀) (h : Guarded decode hash d₀ s)
    {act : Orders.Label} {calls : Orders.St η}
    (hn : (Orders.machine hash).next s.calls act = some calls)
    (hcalls : ∀ i, CallOk { s with calls } i (calls.proc i)) :
    Guarded decode hash d₀ { s with calls } := by
  have hg : Grows s { s with calls } :=
    ⟨fun _ hc => hc, fun _ _ ho => owner_kept h.known hn ho, fun _ _ _ h => h,
      fun k socket hk => ⟨socket, hk, rfl⟩⟩
  refine ⟨run_holds hinit (Machine.Run.once hn) h.known, ?_, hcalls, ?_, ?_, ?_⟩
  · intro j
    exact (h.visits j).mono hg
  · intro k socket hk
    exact (h.sockets k socket hk).mono hg
  · exact h.clients
  · intro e he
    obtain ⟨j, status, hasked, htext⟩ := h.published e he
    exact ⟨j, status, hasked.mono hg, htext⟩

/-- Of a table with one new entry. -/
theorem update_some {α : Type} {f : ℕ → Option α} {j : ℕ} {x y : α}
    (h : Function.update f k (some x) j = some y) : j = k ∧ x = y ∨ j ≠ k ∧ f j = some y := by
  by_cases hjk : j = k
  · subst hjk
    rw [Function.update_self] at h
    exact Or.inl ⟨rfl, Option.some.inj h⟩
  · rw [Function.update_of_ne hjk] at h
    exact Or.inr ⟨hjk, h⟩

/-- The events of a stream are those of its order. -/
theorem client_next {client : Sse.Client} {e : OrderStatusEvent} :
    (client.next e).orderId = client.orderId := by
  unfold Sse.Client.next
  split <;> rfl

/-- The socket is in one more room, that of a visit that got in. -/
theorem SocketOk.joined (h : SocketOk visits k socket) (hin : visits i = .inside (.join k o) claims) :
    SocketOk visits k { socket with rooms := o :: socket.rooms } where
  rooms o' ho' := by
    rcases List.mem_cons.mp ho' with rfl | hold
    · exact ⟨i, claims, hin⟩
    · exact h.rooms o' hold
  received e he := List.mem_cons_of_mem _ (h.received e he)

/-- An event reaches a socket only in the room of its order. -/
theorem SocketOk.emit {event : OrderStatusEvent} (h : SocketOk visits k socket) :
    SocketOk visits k (socket.emit event) := by
  unfold Socket.emit
  split
  · next hroom =>
      refine ⟨h.rooms, ?_⟩
      intro e he
      rcases List.mem_append.mp he with hold | hnew
      · exact h.received e hold
      · obtain rfl := List.mem_singleton.mp hnew
        exact hroom.2
  · exact h

omit [DecidableEq η] in
/-- One socket changes, and nothing else. -/
theorem Guarded.putSocket (h : Guarded decode hash d₀ s)
    (hg : Grows s { s with sockets := Function.update s.sockets k (some socket) })
    (hsocket : SocketOk s.visits k socket) :
    Guarded decode hash d₀ { s with sockets := Function.update s.sockets k (some socket) } := by
  refine ⟨h.known, fun j => (h.visits j).mono hg, fun j => (h.calls j).mono hg, ?_, h.clients,
    h.published⟩
  intro j socket' hj
  rcases update_some hj with ⟨rfl, rfl⟩ | ⟨-, hold⟩
  · exact hsocket
  · exact h.sockets j socket' hold

omit [DecidableEq η] in
/-- A visit that was let in gets in. -/
theorem Guarded.enters (h : Guarded decode hash d₀ s) (hvisit : s.visits i = .entering goal claims)
    (hg : Grows s (s.put i (.inside goal claims))) :
    Guarded decode hash d₀ (s.put i (.inside goal claims)) := by
  have hok := h.visits i
  rw [hvisit] at hok
  exact h.put hg hok

omit [DecidableEq η] in
/-- The event of a status that was set goes to the sockets and the streams of its order. -/
theorem Guarded.hears {id : OrderId} {status : OrderStatus} (h : Guarded decode hash d₀ s)
    (hg : Grows s t) (hvisit : s.visits i = .inside (.updateStatus id status) claims)
    (hproc : s.calls.proc i = .statusSet (.ok o)) (hcalls : t.calls = s.calls)
    (hvisits : t.visits = s.visits)
    (hsockets : t.sockets = fun k => (s.sockets k).map
      (Socket.emit (s.bus.service.publish id (statusText status) s.bus.now).2))
    (hbus : Sse.next dbl s.bus (.publish id (statusText status)) = some t.bus) :
    Guarded decode hash d₀ t := by
  have hcall := h.calls i
  rw [hproc] at hcall
  obtain ⟨status', hasked⟩ := hcall
  refine ⟨hcalls ▸ h.known, ?_, ?_, ?_, ?_, ?_⟩
  · intro j
    rw [hvisits]
    exact (h.visits j).mono hg
  · intro j
    rw [hcalls]
    exact (h.calls j).mono hg
  · intro k socket hk
    rw [hsockets] at hk
    rw [hvisits]
    obtain ⟨old, hold, rfl⟩ := Option.map_eq_some_iff.mp hk
    exact (h.sockets k old hold).emit
  · intro j client hj
    rw [← Option.some.inj hbus] at hj
    obtain ⟨old, hold, rfl⟩ := Option.map_eq_some_iff.mp hj
    obtain ⟨header, c, hin⟩ := h.clients j old hold
    exact ⟨header, c, by rw [client_next, hvisits]; exact hin⟩
  · intro e he
    rw [← Option.some.inj hbus] at he
    rcases List.mem_append.mp he with hold | hnew
    · obtain ⟨j, status', hasked', htext⟩ := h.published e hold
      exact ⟨j, status', hasked'.mono hg, htext⟩
    · obtain rfl := List.mem_singleton.mp hnew
      -- the call is that of the visit
      obtain ⟨c, hin, hallowed⟩ := hasked
      rw [hvisit] at hin
      cases hin
      exact ⟨i, status, Asked.mono hg ⟨claims, hvisit, hallowed⟩, rfl⟩

/-- Every step keeps the site guarded: whoever is in a room, has a stream or gets an event is
entitled to it. -/
theorem Guarded.step (hinit : Orders.Init d₀) (h : Guarded decode hash d₀ s)
    (hm : Moves dbl decode hash s act t) : Guarded decode hash d₀ t := by
  have hg := hm.grows h.known
  -- one case a kind of step; each touches one of the six parts and the growth covers the rest
  cases hm with
  | auth =>
      refine ⟨h.known, fun j => (h.visits j).mono hg, fun j => (h.calls j).mono hg, ?_,
        h.clients, ?_⟩
      · intro k socket hk
        exact (h.sockets k socket hk).mono hg
      · intro e he
        obtain ⟨j, status, hasked, htext⟩ := h.published e he
        exact ⟨j, status, hasked.mono hg, htext⟩
  | @order i a calls ha hn =>
      apply h.called hinit hn
      obtain ⟨d, pc, hst, rfl⟩ := Procs.next_call hn
      apply Procs.forall_update (Q := fun j => CallOk _ j)
      · exact ((h.calls i).run ha hst).mono hg
      · intro j _
        exact (h.calls j).mono hg
  | @tick dt calls hproc hn =>
      have hcalled := h.called hinit hn (by
        intro j
        rw [hproc]
        exact (h.calls j).mono ⟨hg.issued, hg.owner, hg.inside, hg.token⟩)
      exact ⟨hcalled.known, fun j => hcalled.visits j, fun j => hcalled.calls j,
        fun k socket hk => hcalled.sockets k socket hk, hcalled.clients, hcalled.published⟩
  | @connect k token hnone =>
      refine h.putSocket hg ⟨?_, ?_⟩
      · intro o ho
        cases ho
      · intro e he
        cases he
  | @disconnect k socket hsocket =>
      obtain ⟨hrooms, hreceived⟩ := h.sockets k socket hsocket
      exact h.putSocket hg ⟨hrooms, hreceived⟩
  | arrive _ harrive => exact h.put hg (arrive_ok harrive)
  | revoked => exact h.put hg trivial
  | @passes i goal claims hvisit =>
      have hok := h.visits i
      rw [hvisit] at hok
      exact h.put hg hok
  | @calls i id status claims calls hvisit _ hn =>
      have hok := h.visits i
      rw [hvisit] at hok
      have hput : Guarded decode hash d₀ (s.put i (.inside (.updateStatus id status) claims)) := by
        apply h.put
        · exact ⟨hg.issued, fun _ _ ho => ho, hg.inside, fun k socket hk => ⟨socket, hk, rfl⟩⟩
        · exact ⟨hok, trivial⟩
      apply hput.called hinit hn
      obtain ⟨d, pc, hst, rfl⟩ := Procs.next_call hn
      have hon := Sse.stmt_status hst
      apply Procs.forall_update (Q := fun j => CallOk _ j)
      · -- the call has begun
        generalize s.calls.proc i = pc₀ at hon
        cases hon with
        | begins => exact Function.update_self _ _ _
        | other _ hne => exact absurd rfl (hne _ _ _)
      · intro j _
        exact (h.calls j).mono hg
  -- the order was read, so its owner is known from here on
  | @owns i goal claims hvisit =>
      have hok := h.visits i
      rw [hvisit] at hok
      exact h.put hg (own_ok hok)
  | @joins i k o claims socket hvisit hsocket =>
      have hput : Guarded decode hash d₀ (s.put i (.inside (.join k o) claims)) :=
        h.enters hvisit ⟨hg.issued, hg.owner, hg.inside, fun k socket hk => ⟨socket, hk, rfl⟩⟩
      have hsame := hput.sockets k socket hsocket
      exact hput.putSocket ⟨hg.issued, hg.owner, fun _ _ _ h => h, hg.token⟩
        (hsame.joined (Function.update_self _ _ _))
  | @streams i o header claims bus hvisit hbus =>
      have hput : Guarded decode hash d₀ (s.put i (.inside (.events o header) claims)) :=
        h.enters hvisit ⟨hg.issued, hg.owner, hg.inside, fun k socket hk => ⟨socket, hk, rfl⟩⟩
      simp only [Sse.next] at hbus
      split at hbus
      · cases hbus
      · cases hbus
        refine ⟨hput.known, hput.visits, hput.calls, hput.sockets, ?_, hput.published⟩
        intro j client hj
        rcases update_some hj with ⟨rfl, rfl⟩ | ⟨-, hold⟩
        · exact ⟨header, claims, Function.update_self _ _ _⟩
        · exact hput.clients j client hold
  | hears hvisit hproc hbus => exact h.hears hg hvisit hproc rfl rfl rfl hbus
  | @closes i bus hbus =>
      obtain ⟨client, hclient, rfl⟩ := Option.map_eq_some_iff.mp hbus
      refine ⟨h.known, h.visits, h.calls, h.sockets, ?_, h.published⟩
      intro j client' hj
      rcases update_some hj with ⟨rfl, rfl⟩ | ⟨-, hold⟩
      · exact h.clients j client hclient
      · exact h.clients j client' hold

/-- At the start no visit is under way, no socket is in a room and nothing is published. -/
theorem Guarded.init (h : Init hash s) : Guarded decode hash s.calls.shared s where
  known := init_holds h.calls
  visits i := by
    rw [h.visits i]
    trivial
  calls i := by
    rw [h.calls.2 i]
    trivial
  sockets k socket hk := by
    rw [h.sockets k] at hk
    cases hk
  clients i client hi := by
    rw [h.bus.2.1 i] at hi
    cases hi
  published e he := by
    rw [h.bus.2.2] at he
    cases he

/-! ## Whole runs -/

variable {acts : List Step}

/-- The site is guarded after any run. -/
theorem guarded_run (hinit : (machine dbl decode hash).Init s₀)
    (hr : (machine dbl decode hash).Run Machine.Always s₀ acts s) :
    Guarded decode hash s₀.calls.shared s := by
  have hcalls : Orders.Init s₀.calls.shared := hinit.calls.1
  refine hr.invariant (P := Guarded decode hash s₀.calls.shared) ?_ (Guarded.init hinit)
  intro s act t _ hn h
  exact h.step hcalls (next_moves hn)

/-- The streams are those of a process of `Sse.Service`. -/
theorem bus_run (hinit : (machine dbl decode hash).Init s₀)
    (hr : (machine dbl decode hash).Run Machine.Always s₀ acts s) :
    (Sse.machine dbl).Reachable s.bus := by
  have hstart : (Sse.machine dbl).Init s₀.bus := hinit.bus
  refine hr.invariant (P := fun s => (Sse.machine dbl).Reachable s.bus) ?_
    (Machine.Reachable.init hstart)
  intro s act t _ hn h
  have moves : ∀ {l : Sse.Label} {bus : Sse.St}, Sse.next dbl s.bus l = some bus →
      (Sse.machine dbl).Reachable bus := fun hbus => Machine.Reachable.next h hbus
  cases next_moves hn with
  | @tick dt => exact h.next (a := .tick dt) rfl
  | streams _ hbus | hears _ _ hbus | closes hbus => exact moves hbus
  | _ => exact h

/-- A stream has been sent events of its order, and nothing else. -/
def OwnEvents (bus : Sse.St) (client : Sse.Client) : Prop :=
  ∃ es : List OrderStatusEvent, (∀ e ∈ es, e ∈ bus.eventsOf client.orderId) ∧
    client.written = Sse.hello ++ es.flatMap Sse.writeSse

/-- A client of the stream has been written events of its own order only, and a step adds none of
another. -/
theorem OwnEvents.next {x y : Sse.St} {l : Sse.Label} {client : Sse.Client} {c : ℕ}
    (hbuffered : Sse.Buffered x)
    (h : ∀ c client, x.clients c = some client → OwnEvents x client)
    (hn : (Sse.machine dbl).next x l = some y) (hclient : y.clients c = some client) :
    OwnEvents y client := by
  cases l with
  | publish orderId status =>
      cases hn
      obtain ⟨old, hold, rfl⟩ := Option.map_eq_some_iff.mp hclient
      obtain ⟨es, hes, hwritten⟩ := h c old hold
      generalize (x.service.publish orderId status x.now).2 = event
      have hkept : ∀ e ∈ es, e ∈ (x.published ++ [event]).filter
          fun e => e.orderId = old.orderId := by
        intro e he
        rw [List.filter_append]
        exact List.mem_append_left _ (hes e he)
      unfold Sse.Client.next
      split
      · next hown =>
          refine ⟨es ++ [event], ?_, ?_⟩
          · intro e he
            rcases List.mem_append.mp he with hin | hnew
            · exact hkept e hin
            · obtain rfl := List.mem_singleton.mp hnew
              apply List.mem_filter.mpr
              exact ⟨List.mem_append_right _ List.mem_cons_self, by simpa using hown.2⟩
          · change old.written ++ _ = _
            rw [hwritten, List.flatMap_append, List.flatMap_singleton, List.append_assoc]
      · exact ⟨es, hkept, hwritten⟩
  -- a client that comes is replayed from the buffer of its order
  | connect c' orderId header =>
      simp only [Sse.machine, Sse.next] at hn
      split at hn
      · cases hn
      · cases hn
        rcases update_some hclient with ⟨-, rfl⟩ | ⟨-, hold⟩
        · unfold Sse.orderEventsStream
          split
          · exact ⟨[], by simp, by simp⟩
          · next last _ =>
              refine ⟨x.service.historyAfter orderId last, ?_, rfl⟩
              intro e he
              have hin := (List.mem_filter.mp he).1
              rw [hbuffered.buffers orderId] at hin
              exact List.mem_of_mem_drop hin
        · exact h c client hold
  | close c' =>
      obtain ⟨old, hold, rfl⟩ := Option.map_eq_some_iff.mp hn
      rcases update_some hclient with ⟨-, rfl⟩ | ⟨-, hother⟩
      · exact h c' old hold
      · exact h c client hother
  | tick dt =>
      cases hn
      exact h c client hclient

/-- In every reachable state every client has been written events of its own order only. -/
theorem ownEvents_reachable {x : Sse.St} (hx : (Sse.machine dbl).Reachable x) :
    ∀ c client, x.clients c = some client → OwnEvents x client := by
  refine hx.invariant_of (P := fun x => ∀ c client, x.clients c = some client →
    OwnEvents x client) ?_ ?_
  · intro x hinit c client hc
    rw [hinit.2.1 c] at hc
    cases hc
  · intro x l y hreach hn h c client hc
    exact OwnEvents.next (Sse.reachable_buffered hreach) h hn hc

/-- Who hears of an order, in every run. A socket has received events only of orders of the user
of its token; a stream was written events of its own order, which belongs to who opened it; and
a status is published, or written, only for an admin or for the owner who cancels. -/
theorem events_private (hinit : (machine dbl decode hash).Init s₀)
    (hr : (machine dbl decode hash).Run Machine.Always s₀ acts s) :
    (∀ k socket, s.sockets k = some socket → ∀ e ∈ socket.received,
      ∃ c ∈ s.auth.issued, socket.token.bind decode = some c ∧ s.owner e.orderId = some c.sub) ∧
    (∀ i client, s.bus.clients i = some client → OwnEvents s.bus client ∧
      ∃ header, ∃ c ∈ s.auth.issued, s.visits i = .inside (.events client.orderId header) c ∧
        s.owner client.orderId = some c.sub) ∧
    (∀ e ∈ s.bus.published, ∃ i status, ∃ c ∈ s.auth.issued,
      s.visits i = .inside (.updateStatus e.orderId status) c ∧ e.status = statusText status ∧
        Allowed s c e.orderId status) ∧
    ∀ i o status, s.calls.proc i = .statusUpdate o status → ∃ c ∈ s.auth.issued,
      s.visits i = .inside (.updateStatus o status) c ∧ Allowed s c o status := by
  have h := guarded_run hinit hr
  have inside : ∀ {i goal c}, s.visits i = .inside goal c →
      (c ∈ s.auth.issued ∧ FromSocket decode s goal c) ∧ Owns s goal c := by
    intro i goal c hvisit
    have hok := h.visits i
    rw [hvisit] at hok
    exact hok
  refine ⟨?_, ?_, ?_, ?_⟩
  · intro k socket hk e he
    obtain ⟨hrooms, hreceived⟩ := h.sockets k socket hk
    obtain ⟨i, c, hvisit⟩ := hrooms e.orderId (hreceived e he)
    obtain ⟨⟨hissued, socket', hk', htoken⟩, howns⟩ := inside hvisit
    rw [hk] at hk'
    obtain rfl := Option.some.inj hk'
    exact ⟨c, hissued, htoken, howns⟩
  · intro i client hi
    refine ⟨ownEvents_reachable (bus_run hinit hr) i client hi, ?_⟩
    obtain ⟨header, c, hvisit⟩ := h.clients i client hi
    obtain ⟨⟨hissued, -⟩, howns⟩ := inside hvisit
    exact ⟨header, c, hissued, hvisit, howns⟩
  · intro e he
    obtain ⟨i, status, ⟨c, hvisit, hallowed⟩, htext⟩ := h.published e he
    exact ⟨i, status, c, (inside hvisit).1.1, hvisit, htext, hallowed⟩
  · intro i o status hproc
    have hcall := h.calls i
    rw [hproc] at hcall
    obtain ⟨c, hvisit, hallowed⟩ := hcall
    exact ⟨c, (inside hvisit).1.1, hvisit, hallowed⟩

/-! ## A cancelled order -/

/-- User 7 has order 1, and nobody is connected. -/
def quietSite : Site Request where
  auth :=
    { refreshTokens := fun _ => none, accessDenylist := fun _ => none
      revokedFamilies := fun _ => none, users := fun u => if u = 7 then some "buyer" else none
      now := 0, nextToken := 0, nextFamily := 0, nextJti := 0, issued := [] }
  calls := Sse.oneOrder.calls
  bus := Sse.freshProcess
  heard _ := false
  sockets _ := none
  visits _ := .absent

/-- The concrete start is a proper one: one order of user 7, and nobody there. -/
theorem quietSite_init : Init id quietSite where
  rows _ := rfl
  issued := rfl
  calls := Sse.oneOrder_init.calls
  bus := Sse.freshProcess_init .unrounded
  heard _ := rfl
  sockets _ := rfl
  visits _ := rfl

/-- The first token of user 7. -/
def buyerToken : AccessClaims := Auth.sign 0 0 7 .buyer 0

def readToken (text : List Char) : Option AccessClaims :=
  if text = ['7'] then some buyerToken else none

/-- The user logs in, joins the room of the order, and cancels it. -/
def watchAndCancel : List Step :=
  [.auth (.login (some 7)) ⟨[], [], []⟩, .connect 0 (some ['7']), .arrive 0 (.join 0 (some 1)),
    .go 0, .go 0, .go 0, .arrive 1 (.updateStatus 1 .cancelled (some (bearer ++ ['7']))), .go 1,
    .order 1 .run, .order 1 .run, .order 1 .run, .order 1 .run, .hear 1]

/-- The owner watches the order, cancels it, and gets the one event. -/
theorem events_private_cancelled : ∃ (s : Site Request) (socket : Socket) (e : OrderStatusEvent),
    (machine .unrounded readToken id).exec (fun _ _ => true) quietSite watchAndCancel = some s ∧
      s.sockets 0 = some socket ∧ socket.received = [e] ∧ e.status = "cancelled" ∧
      s.owner e.orderId = some 7 := by
  have hrun : ∃ s : Site Request,
      (machine .unrounded readToken id).exec (fun _ _ => true) quietSite watchAndCancel = some s ∧
        s.sockets 0 = some ⟨some ['7'], true, [1], [⟨1, 1, "cancelled", 0⟩]⟩ :=
    ⟨_, rfl, rfl⟩
  obtain ⟨s, hexec, hsocket⟩ := hrun
  obtain ⟨hprivate, -, -, -⟩ := events_private quietSite_init (Machine.exec_always hexec)
  obtain ⟨c, -, htoken, howner⟩ := hprivate 0 _ hsocket _ List.mem_cons_self
  refine ⟨s, _, _, hexec, hsocket, rfl, rfl, ?_⟩
  have hc : buyerToken = c := Option.some.inj htoken
  rw [howner, ← hc]
  rfl

end Marketplace.Live
