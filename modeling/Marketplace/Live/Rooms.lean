import Marketplace.Live.Access

/-!
# Live.Rooms — in the room, and out of it

A socket in the room of an order is sent every event of it, once and in order, until it
disconnects (`room_receives`). After a logout that no refresh of its family overlaps nobody
comes in with a token of that login who was not on the way before: `verify` and the query are
two moments, and between them a token may only have run out (`logged_out_stays_out`). A refresh
that commits while the logout is at work is the matter of `Auth.Revocation`.
-/

namespace Marketplace.Live

open Core Orders
open Auth (AccessClaims UserId FamilyId floorSec)
open Outbox (OrderId)
open Auth.Atomic (Store isAccessRevoked Sweep Known Closed)
open Sse (OrderStatusEvent statusText)

variable {η : Type} [DecidableEq η] {dbl : Doubles} {decode : List Char → Option AccessClaims}
  {hash : Request → η} {s s₀ t u : Site η} {i k : ℕ} {act : Step} {acts as bs : List Step}
  {claims : AccessClaims} {o : OrderId} {socket : Socket} {F : FamilyId}

/-! ## In the room -/

/-- The events of an order among those a socket was sent. -/
def Socket.receivedOf (socket : Socket) (o : OrderId) : List OrderStatusEvent :=
  socket.received.filter fun e => e.orderId = o

/-- What has happened since the socket was in the room in state `s`. -/
def Following (s : Site η) (k : ℕ) (o : OrderId) (before : List OrderStatusEvent)
    (t : Site η) : Prop :=
  ∃ live socket, t.bus.eventsOf o = s.bus.eventsOf o ++ live ∧ t.sockets k = some socket ∧
    o ∈ socket.rooms ∧ (socket.connected = true → socket.receivedOf o = before ++ live)

omit [DecidableEq η] in
/-- What follows a room depends on its socket and on the events published, and on nothing else. -/
theorem Following.same {before : List OrderStatusEvent} (h : Following s k o before t)
    (hsockets : u.sockets k = t.sockets k) (hpublished : u.bus.published = t.bus.published) :
    Following s k o before u := by
  obtain ⟨live, socket, hlive, hk, hrest⟩ := h
  refine ⟨live, socket, ?_, hsockets.trans hk, hrest⟩
  rw [← hlive, Sse.St.eventsOf, Sse.St.eventsOf, hpublished]

/-- `emit`, to a socket that is in the room of the event or is not connected. -/
theorem emit_receivedOf {e : OrderStatusEvent} (hroom : o ∈ socket.rooms)
    (hconnected : (socket.emit e).connected = true) :
    socket.connected = true ∧ (socket.emit e).receivedOf o =
      socket.receivedOf o ++ [e].filter fun e => e.orderId = o := by
  unfold Socket.emit at hconnected ⊢
  split
  · next hin =>
      refine ⟨hin.1, ?_⟩
      exact List.filter_append _ _
  · next hout =>
      rw [if_neg hout] at hconnected
      refine ⟨hconnected, ?_⟩
      -- an event of another order
      have hne : e.orderId ≠ o := by
        rintro rfl
        exact hout ⟨hconnected, hroom⟩
      simp [hne]

/-- A socket in a room has received every event of it since it came in, in order, as long as it is
connected; no step breaks that. -/
theorem Following.step {before : List OrderStatusEvent} (h : Following s k o before t)
    (hm : Moves dbl decode hash t act u) : Following s k o before u := by
  -- connecting makes a new socket, a room joined is added to the old ones
  cases hm with
  | auth | order | tick | arrive | revoked | passes | calls | owns => exact h.same rfl rfl
  | @connect k' token hnone =>
      have hne : k ≠ k' := by
        rintro rfl
        obtain ⟨-, socket, -, hk, -⟩ := h
        rw [hnone] at hk
        cases hk
      exact h.same (Function.update_of_ne hne _ _) rfl
  | @disconnect k' old hold =>
      by_cases hkk : k = k'
      · subst hkk
        obtain ⟨live, socket, hlive, hk, hroom, -⟩ := h
        rw [hold] at hk
        obtain rfl := Option.some.inj hk
        refine ⟨live, _, hlive, Function.update_self _ _ _, hroom, ?_⟩
        intro hconnected
        cases hconnected
      · exact h.same (Function.update_of_ne hkk _ _) rfl
  | @joins i k' o' claims old hvisit hold =>
      by_cases hkk : k = k'
      · subst hkk
        obtain ⟨live, socket, hlive, hk, hroom, hreceived⟩ := h
        rw [hold] at hk
        obtain rfl := Option.some.inj hk
        exact ⟨live, _, hlive, Function.update_self _ _ _, List.mem_cons_of_mem _ hroom, hreceived⟩
      · exact h.same (Function.update_of_ne hkk _ _) rfl
  | streams _ hbus =>
      simp only [Sse.next] at hbus
      split at hbus
      · cases hbus
      · cases hbus
        exact h.same rfl rfl
  -- the event goes to every connected socket of its room
  | @hears i id o' status claims bus hvisit hproc hbus =>
      obtain ⟨live, socket, hlive, hk, hroom, hreceived⟩ := h
      cases hbus
      generalize (t.bus.service.publish id (statusText status) t.bus.now).2 = event
      refine ⟨live ++ [event].filter fun e => e.orderId = o, socket.emit event, ?_, ?_, ?_, ?_⟩
      · change (t.bus.published ++ [event]).filter _ = _
        rw [List.filter_append, ← List.append_assoc, ← hlive]
        rfl
      · exact congrArg (Option.map _) hk
      · unfold Socket.emit
        split
        · exact hroom
        · exact hroom
      · intro hconnected
        obtain ⟨hbefore, hevents⟩ := emit_receivedOf hroom hconnected
        rw [hevents, hreceived hbefore, List.append_assoc]
  | closes hbus =>
      obtain ⟨client, -, rfl⟩ := Option.map_eq_some_iff.mp hbus
      exact h.same rfl rfl

/-- From any moment at which the socket is in the room, however it came about: while it stays
connected it gets exactly the events published since, each once and in their order. -/
theorem room_receives (hr : (machine dbl decode hash).Run Machine.Always s acts t)
    (hsocket : s.sockets k = some socket) (hroom : o ∈ socket.rooms) :
    ∃ live socket', t.bus.eventsOf o = s.bus.eventsOf o ++ live ∧
      t.sockets k = some socket' ∧ (socket'.connected = true →
        socket'.receivedOf o = socket.receivedOf o ++ live) := by
  have hfollowing : Following s k o (socket.receivedOf o) t := by
    refine hr.invariant (P := Following s k o (socket.receivedOf o)) ?_ ?_
    · intro t act u _ hn h
      exact h.step (next_moves hn)
    · exact ⟨[], socket, (List.append_nil _).symm, hsocket, hroom,
        fun _ => (List.append_nil _).symm⟩
  obtain ⟨live, socket', hlive, hk, -, hreceived⟩ := hfollowing
  exact ⟨live, socket', hlive, hk, hreceived⟩

/-- The witness of `events_private`, from the moment the socket has joined. -/
theorem room_receives_cancelled : ∃ (s t : Site Request) (joined socket : Socket)
    (e : OrderStatusEvent),
    (machine .unrounded readToken id).exec (fun _ _ => true) quietSite (watchAndCancel.take 6) =
        some s ∧
      (machine .unrounded readToken id).exec (fun _ _ => true) s (watchAndCancel.drop 6) =
        some t ∧
      s.sockets 0 = some joined ∧ joined.received = [] ∧ t.sockets 0 = some socket ∧
      t.bus.eventsOf 1 = [e] ∧ socket.receivedOf 1 = [e] := by
  have hrun : ∃ s t : Site Request,
      (machine .unrounded readToken id).exec (fun _ _ => true) quietSite
          (watchAndCancel.take 6) = some s ∧
        (machine .unrounded readToken id).exec (fun _ _ => true) s (watchAndCancel.drop 6) =
          some t ∧
        s.sockets 0 = some ⟨some ['7'], true, [1], []⟩ ∧ s.bus.eventsOf 1 = [] ∧
        (t.sockets 0).map Socket.connected = some true ∧
        t.bus.eventsOf 1 = [⟨1, 1, "cancelled", 0⟩] := ⟨_, _, rfl, rfl, rfl, rfl, rfl, rfl⟩
  obtain ⟨s, t, hjoin, hcancel, hjoined, hnone, hconnected, hevents⟩ := hrun
  obtain ⟨live, socket, hlive, hsocket, hreceived⟩ :=
    room_receives (Machine.exec_always hcancel) hjoined (o := 1) List.mem_cons_self
  rw [hnone, hevents] at hlive
  rw [hsocket] at hconnected
  have hlater := hreceived (Option.some.inj hconnected)
  exact ⟨s, t, _, socket, _, hjoin, hcancel, hjoined, rfl, hsocket, hevents,
    hlater.trans hlive.symm⟩

/-! ## After a logout -/

/-- After any run the store knows every token it has issued. -/
theorem known_run (hinit : (machine dbl decode hash).Init s₀)
    (hr : (machine dbl decode hash).Run Machine.Always s₀ acts s) : Known s.auth := by
  refine hr.invariant (P := fun s => Known s.auth) ?_ ?_
  · intro s act t _ hn h
    cases next_moves hn with
    | auth hstep => exact h.step hstep
    | @tick dt => exact h.tick dt
    | _ => exact h
  · constructor
    · intro k row hrow
      rw [hinit.rows k] at hrow
      cases hrow
    · intro c hc
      rw [hinit.issued] at hc
      cases hc

/-- A visit with a token of the family that is past the query: the token has run out. -/
def Barred (F : FamilyId) (now : ℕ) : Visit → Prop
  | .owning _ c | .entering _ c | .inside _ c => c.fid = F → c.exp ≤ floorSec now
  | _ => True

/-- What is barred now is barred later. -/
theorem Barred.later {now dt : ℕ} {visit : Visit} (h : Barred F now visit) :
    Barred F (now + dt) visit := by
  have hmono : floorSec now ≤ floorSec (now + dt) :=
    Auth.Atomic.floorSec_mono (Nat.le_add_right _ _)
  cases visit with
  | owning | entering | inside => exact fun hF => Nat.le_trans (h hF) hmono
  | _ => trivial

omit [DecidableEq η] in
/-- A step of another visit bars nobody less. -/
theorem put_barred {visit : Visit} {now : ℕ} {j : ℕ} (h : Barred F now (s.visits i))
    (hvisit : j = i → Barred F now visit) : Barred F now ((s.put j visit).visits i) := by
  by_cases hji : j = i
  · subst hji
    have hself : (s.put j visit).visits j = visit := Function.update_self _ _ _
    rw [hself]
    exact hvisit rfl
  · have hother : (s.put j visit).visits i = s.visits i :=
      Function.update_of_ne (Ne.symm hji) _ _
    rw [hother]
    exact h

/-- The clock of the auth tables does not go back. -/
theorem auth_later {x y : Store} {call : Auth.Atomic.Call} {w : Sweep}
    {r : Auth.Atomic.Outcome} (h : Auth.Atomic.step w x call = some (y, r)) :
    ∃ dt, y.now = x.now + dt := by
  -- only the tick moves the clock
  cases call with
  | login user =>
      simp only [Auth.Atomic.step] at h
      split at h
      · cases h
        refine ⟨0, ?_⟩
        unfold Auth.Atomic.login
        split <;> rfl
      · cases h
  | refresh tok =>
      cases h
      have hcases := Auth.Atomic.refresh_cases tok x
      generalize (Auth.Atomic.refresh tok x).1 = y, (Auth.Atomic.refresh tok x).2 = pair at hcases
      refine ⟨0, ?_⟩
      cases hcases <;> rfl
  | logout claims =>
      simp only [Auth.Atomic.step] at h
      split at h
      · cases h
        exact ⟨0, rfl⟩
      · cases h
  | authenticate token =>
      cases h
      exact ⟨0, rfl⟩
  | sweepExpired =>
      simp only [Auth.Atomic.step] at h
      split at h
      · cases h
        exact ⟨0, rfl⟩
      · cases h
  | tick dt =>
      cases h
      exact ⟨dt, rfl⟩

omit [DecidableEq η] in
/-- Nobody gets past the query at once. -/
theorem arrive_barred {arrival : Arrival} {visit : Visit} {now : ℕ}
    (h : s.arrive decode arrival = some visit) : Barred F now visit := by
  have admitted : ∀ goal token, Barred F now (s.authenticating decode goal token) := by
    intro goal token
    unfold Site.authenticating
    split
    · trivial
    · trivial
    · split <;> trivial
  unfold Site.arrive at h
  split at h
  · split at h
    · cases h
    · split at h
      · split at h
        · cases h
          trivial
        · cases h
          exact admitted _ _
      · cases h
  · cases h
    exact admitted _ _
  · cases h
    exact admitted _ _

/-- The family has ended, and nobody gets past the query with a token of it that is alive. -/
structure ShutOut (F : FamilyId) (i : ℕ) (s : Site η) : Prop where
  known : Known s.auth
  closed : Closed F s.auth
  barred : Barred F s.auth.now (s.visits i)

/-- A family that is logged out stays shut out: no visit with its token gets past the guard after
the logout. -/
theorem ShutOut.step (hvisits : ∀ j, VisitOk decode s (s.visits j)) (h : ShutOut F i s)
    (hm : Moves dbl decode hash s act t) : ShutOut F i t := by
  obtain ⟨hknown, hclosed, hbarred⟩ := h
  cases hm with
  -- login, refresh and sweeps leave a closed family closed
  | @auth call w r hstep =>
      obtain ⟨store, outcome⟩ := r
      refine ⟨hknown.step hstep, hclosed.step hknown hstep, ?_⟩
      obtain ⟨dt, hnow⟩ := auth_later hstep
      change Barred F store.now (s.visits i)
      rw [hnow]
      exact hbarred.later
  | @tick dt => exact ⟨hknown.tick dt, hclosed.tick dt, hbarred.later⟩
  | order | connect | disconnect | hears | closes => exact ⟨hknown, hclosed, hbarred⟩
  | @arrive j arrival visit habsent harrive =>
      refine ⟨hknown, hclosed, put_barred hbarred fun _ => ?_⟩
      exact arrive_barred harrive
  | revoked => exact ⟨hknown, hclosed, put_barred hbarred fun _ => trivial⟩
  | @passes j goal c hvisit hpass | @calls j id status c calls hvisit hpass =>
      refine ⟨hknown, hclosed, put_barred hbarred fun _ => ?_⟩
      -- the query has not found the family
      have hok := hvisits j
      rw [hvisit] at hok
      exact fun hF => hclosed.expired hok.1 hF hpass
  | @owns j goal c hvisit =>
      refine ⟨hknown, hclosed, put_barred hbarred ?_⟩
      rintro rfl
      rw [hvisit] at hbarred
      unfold Site.own
      split
      · trivial
      · exact hbarred
  | @joins j k o c socket hvisit =>
      refine ⟨hknown, hclosed, put_barred hbarred ?_⟩
      rintro rfl
      rw [hvisit] at hbarred
      exact hbarred
  | @streams j o header c bus hvisit =>
      refine ⟨hknown, hclosed, put_barred hbarred ?_⟩
      rintro rfl
      rw [hvisit] at hbarred
      exact hbarred

/-- After a logout, which is one step here: who comes later does not get past the guard with a
token of the logged-out family, but for a token that has run out by then. -/
theorem logged_out_stays_out {w : Sweep} (hinit : (machine dbl decode hash).Init s₀)
    (hr : (machine dbl decode hash).Run Machine.Always s₀ as s)
    (hlogout : (machine dbl decode hash).next s (.auth (.logout claims) w) = some u)
    (hr' : (machine dbl decode hash).Run Machine.Always u bs t) (habsent : u.visits i = .absent)
    {goal : Goal} {c : AccessClaims} (hinside : t.visits i = .inside goal c)
    (hfamily : c.fid = claims.fid) : c.exp ≤ floorSec t.auth.now := by
  have hbefore := hr.step trivial hlogout
  have hshut : ShutOut claims.fid i u := by
    refine ⟨known_run hinit hbefore, ?_, ?_⟩
    · cases next_moves hlogout with
      | auth hstep => exact (known_run hinit hr).logout hstep
    · rw [habsent]
      trivial
  -- along the rest of the run, on top of what is known of every visit
  have hboth : Guarded decode hash s₀.calls.shared t ∧ ShutOut claims.fid i t := by
    refine hr'.invariant (P := fun t => Guarded decode hash s₀.calls.shared t ∧
      ShutOut claims.fid i t) ?_ ⟨guarded_run hinit hbefore, hshut⟩
    intro t act v _ hn h
    exact ⟨h.1.step hinit.calls.1 (next_moves hn), h.2.step h.1.visits (next_moves hn)⟩
  have hbarred := hboth.2.barred
  rw [hinside] at hbarred
  exact hbarred hfamily

/-- The token is verified half a second before its `exp`, and the query runs half a second
after it, when the family is not denied any more. -/
def lastSecond : List Step :=
  [.tick 599500000, .arrive 0 (.join 0 (some 1)), .tick 1000000, .go 0, .go 0, .go 0]

/-- The logout comes while a join is on its way, and in the last second of the token no one else
gets in. -/
theorem logged_out_stays_out_race : ∃ s u t : Site Request,
    (machine .unrounded readToken id).exec (fun _ _ => true) quietSite
        (watchAndCancel.take 2) = some s ∧
      (machine .unrounded readToken id).next s (.auth (.logout buyerToken) ⟨[], [], []⟩) =
        some u ∧
      (machine .unrounded readToken id).exec (fun _ _ => true) u lastSecond = some t ∧
      t.visits 0 = .inside (.join 0 1) buyerToken ∧ buyerToken.exp ≤ floorSec t.auth.now := by
  have hrun : ∃ s u t : Site Request,
      (machine .unrounded readToken id).exec (fun _ _ => true) quietSite
          (watchAndCancel.take 2) = some s ∧
        (machine .unrounded readToken id).next s (.auth (.logout buyerToken) ⟨[], [], []⟩) =
          some u ∧
        (machine .unrounded readToken id).exec (fun _ _ => true) u lastSecond = some t ∧
        u.visits 0 = .absent ∧ t.visits 0 = .inside (.join 0 1) buyerToken :=
    ⟨_, _, _, rfl, rfl, rfl, rfl, rfl⟩
  obtain ⟨s, u, t, hlogin, hlogout, hrace, habsent, hinside⟩ := hrun
  exact ⟨s, u, t, hlogin, hlogout, hrace, hinside,
    logged_out_stays_out quietSite_init (Machine.exec_always hlogin) hlogout
      (Machine.exec_always hrace) habsent hinside rfl⟩

end Marketplace.Live
