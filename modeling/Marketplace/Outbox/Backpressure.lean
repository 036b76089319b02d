import Marketplace.Outbox.RelaySafety

/-!
# Outbox.Backpressure — a relay pass and its channel

`publishRow` of `src/outbox/relay.ts` with what `Outbox.Relay` leaves out: a publish into a full
write buffer waits for 'drain', and the channel may close at any moment. Passes share channels:
`chanOf i` is the channel of pass `i`.

* when the waits and the channels are forgotten, every run is a run of `Outbox.Relay`
  (`reachable_forget`), so what holds of the rows and messages there holds here;
* a pass whose channel closes while it waits for 'drain' is stuck (`no_pass_stuck_closed`), and
  there is no other way to be stuck (`no_pass_stuck`).
-/

namespace Marketplace.Outbox

open Core

namespace Relay

variable {i : ℕ} {d d' : Db} {pc : Pc}

/-! ## A pass that waits for nobody -/

/-- An UPDATE of one row leaves every lock that the pass holds in place, also the one on the row
that is written. -/
theorem update_held {k k' : EventId} {f : OutboxRow → OutboxRow} (hk' : (d.outbox k').Held i)
    (h : update i d k f = some d') : (d'.outbox k').Held i := by
  unfold update at h
  obtain ⟨⟨T, r⟩, hu, rfl⟩ := Option.map_eq_some_iff.mp h
  rcases Table.updateWhere_cases hu with ⟨rfl, -, -⟩ | ⟨row, -, -, -, -, rfl⟩
  · exact hk'
  · rw [Table.held_put_iff]
    split
    · rfl
    · exact hk'

/-- The UPDATE of a row that the pass has locked does not wait. -/
theorem update_isSome {k : EventId} {f : OutboxRow → OutboxRow} (hk : (d.outbox k).Held i) :
    (update i d k f).isSome := by
  unfold update Table.updateWhere
  rw [Option.isSome_map]
  split
  · rfl
  · rw [if_pos rfl, if_pos hk.free]
    rfl

/-- The UPDATEs of rows that the pass has all locked do not wait either: each of them leaves the
locks on the rest as they are. -/
theorem updateAll_isSome {at₀ : ℕ} {rows : List OutboxRow}
    (h : ∀ row ∈ rows, (d.outbox row.id).Held i) : (updateAll i at₀ d rows).isSome := by
  induction rows generalizing d with
  | nil => rfl
  | cons row rows ih =>
      obtain ⟨d', hu⟩ := Option.isSome_iff_exists.mp
        (update_isSome (f := markPublishedRow at₀) (h row List.mem_cons_self))
      rw [updateAll, hu]
      refine ih ?_
      intro row' hrow'
      exact update_held (h row' (List.mem_cons_of_mem _ hrow')) hu

/-- Everything the pass has sent has settled. -/
def AllSeen (i : ℕ) (d : Db) : Prop := ∀ n s, d.sends n = some s → s.pass = i → s.seen ≠ none

/-- `Promise.allSettled` over messages that have each been confirmed, refused or cut off returns,
whatever their outcomes are. -/
theorem allSettled_isSome {sent : List (OutboxRow × ℕ)}
    (hsent : ∀ p ∈ sent, ∃ s, d.sends p.2 = some s ∧ s.pass = i ∧ s.row = p.1)
    (h : AllSeen i d) : (allSettled d sent).isSome := by
  unfold allSettled
  induction sent with
  | nil => rfl
  | cons p sent ih =>
      obtain ⟨s, hs, hpass, -⟩ := hsent p List.mem_cons_self
      obtain ⟨r, hr⟩ := Option.ne_none_iff_exists'.mp (h p.2 s hs hpass)
      obtain ⟨rest, hrest⟩ := Option.isSome_iff_exists.mp
        (ih fun q hq => hsent q (List.mem_cons_of_mem _ hq))
      rw [List.mapM_cons, hrest, hs, Option.bind_some, hr]
      rfl

/-- A pass whose messages have all settled can take its next statement. -/
theorem stmt_ready (hl : Loc i d pc) (hopen : pc.Open) (hseen : AllSeen i d) :
    (stmt i d pc .run).isSome := by
  cases pc with
  | lock at₀ batchSize todo rows =>
      cases todo with
      | nil => rfl
      | cons k todo =>
          simp only [stmt]
          split
          · split <;> rfl
          · rfl
  | publish at₀ sent todo => cases todo <;> rfl
  | settle at₀ sent =>
      -- the await of `Promise.allSettled`: nothing is outstanding
      simp only [stmt, Option.isSome_map]
      exact allSettled_isSome hl.messages.1 hseen
  | markPublished at₀ confirmed failed =>
      -- the rows of both UPDATEs were locked by the SELECT of this pass
      simp only [stmt, Option.isSome_map]
      refine updateAll_isSome ?_
      intro row hrow
      refine ((hl.writes id).held row.id).mpr ?_
      simp only [Pc.writes, List.map_append, locked_ids]
      exact List.mem_append_left _ (List.mem_map_of_mem hrow)
  | markFailed at₀ confirmed marked todo =>
      cases todo with
      | nil => rfl
      | cons p todo =>
          simp only [stmt, Option.isSome_map]
          refine update_isSome ((hl.writes id).held p.1 |>.mpr ?_)
          simp [Pc.writes, lockedIds]
  | idle => exact hopen.elim
  | done result => exact hopen.elim
  | aborted => exact hopen.elim
  | _ => rfl

end Relay

namespace Backpressure

/-! ## The channel -/

structure Channel where
  /-- The message of the error that closed it. -/
  closed : Option String
  /-- `ch.publish` returns false. -/
  full : Bool
  /-- How often 'drain' has been emitted. -/
  drains : ℕ

structure Db where
  relay : Relay.Db
  chans : ℕ → Channel

/-- Where a pass is; `drain n` waits for a 'drain' after the first `n`. -/
inductive Pc where
  | relay (pc : Relay.Pc)
  | drain (n : ℕ) (pc : Relay.Pc)

/-- The point of `Outbox.Relay` that a pass has reached. -/
def Pc.forget : Pc → Relay.Pc
  | .relay pc | .drain _ pc => pc

def Db.setChan (c : ℕ) (ch : Channel) (d : Db) : Db :=
  { d with chans := Function.update d.chans c ch }

/-- `ch.publish` on a closed channel throws, which rejects the promise. -/
def publishClosed (i : ℕ) (row : OutboxRow) (message : String) (d : Relay.Db) : Relay.Db :=
  Relay.setSend (d.publish i row) d.nextSend ⟨i, row, false, some (.rejected message)⟩

/-- `publishRow`: send the row and, if the buffer is full, wait. -/
def publishRow (i : ℕ) (ch : Channel) (d : Db) (row : OutboxRow) (pc : Relay.Pc) : Db × Pc :=
  match ch.closed with
  | some message => ({ d with relay := publishClosed i row message d.relay }, .relay pc)
  | none =>
      ({ d with relay := d.relay.publish i row },
        if ch.full then .drain ch.drains pc else .relay pc)

section

variable (chanOf : ℕ → ℕ)

def stmt (i : ℕ) (d : Db) : Pc → Relay.Stmt → Option (Db × Pc)
  | .relay (.publish at₀ sent (row :: todo)), .run =>
      some (publishRow i (d.chans (chanOf i)) d row
        (.publish at₀ (sent ++ [(row, d.relay.nextSend)]) todo))
  | .relay pc, a => (Relay.stmt i d.relay pc a).map fun r => ({ d with relay := r.1 }, .relay r.2)
  | .drain n pc, .run => if n < (d.chans (chanOf i)).drains then some (d, .relay pc) else none
  | .drain _ _, .abort => some ({ d with relay := d.relay.rollback i }, .relay .aborted)
  | .drain _ _, _ => none

/-- What the other parties do: what they do in `Outbox.Relay`, and what happens to a channel. -/
inductive Env where
  | relay (e : Relay.Env)
  | fill (c : ℕ)
  | drain (c : ℕ)
  | close (c : ℕ) (message : String)

/-- An outstanding message of the channel is rejected. -/
def cutOff (c : ℕ) (message : String) (s : Send) : Send :=
  if chanOf s.pass = c ∧ s.seen = none then { s with seen := some (.rejected message) } else s

def env (d : Db) : Env → Option Db
  | .relay e => (Relay.env d.relay e).map fun relay => { d with relay }
  | .fill c =>
      if (d.chans c).closed = none then some (d.setChan c { d.chans c with full := true }) else none
  | .drain c =>
      if (d.chans c).closed = none ∧ (d.chans c).full = true then
        some (d.setChan c { d.chans c with full := false, drains := (d.chans c).drains + 1 })
      else none
  | .close c message =>
      if (d.chans c).closed = none ∧ isChannelClosed message = true then
        some ({ d with
          relay := { d.relay with
            sends := fun n => (d.relay.sends n).map (cutOff chanOf c message) } }.setChan c
          { d.chans c with closed := some message })
      else none

def procs : Procs ℕ Db Pc Relay.Stmt Env where
  Init d := Relay.Init d.relay
  idle := .relay .idle
  stmt := stmt chanOf
  env := env chanOf

abbrev St := World ℕ Db Pc
abbrev Label := Act ℕ Relay.Stmt Env
abbrev machine : Machine St Label := (procs chanOf).machine

end

/-! ## Runs of Outbox.Relay -/

variable {chanOf : ℕ → ℕ} {s t : St} {i : ℕ}

/-- The waits and the channels forgotten. -/
def forget (s : St) : Relay.St := ⟨s.shared.relay, fun i => (s.proc i).forget⟩

/-- A call of a pass changes, once the waits are forgotten, the program point of that pass and of
no other. -/
theorem forget_call (s : St) (i : ℕ) (d : Db) (p : Pc) :
    forget ⟨d, Function.update s.proc i p⟩ =
      ⟨d.relay, Function.update (forget s).proc i p.forget⟩ := by
  unfold forget
  congr 1
  funext j
  by_cases hj : j = i
  · subst hj
    simp only [Function.update_self]
  · simp only [Function.update_of_ne hj]

/-- A statement of `Outbox.Relay`, taken as a run of one step: what most of the steps here come
down to. -/
theorem relay_step {a : Relay.Stmt} {d : Relay.Db} {pc : Relay.Pc}
    (h : Relay.stmt i (forget s).shared ((forget s).proc i) a = some (d, pc)) :
    Relay.machine.Run Machine.Always (forget s) [.call i a]
      ⟨d, Function.update (forget s).proc i pc⟩ :=
  Machine.Run.single trivial (Procs.next_of_stmt (P := Relay.procs) h)

/-- What a statement of a pass can be: a publish, any other statement of `Outbox.Relay`, the end
of a wait for 'drain', or the loss of the connection while it waits. -/
theorem stmt_cases {a : Relay.Stmt} {d d' : Db} {p p' : Pc}
    (h : stmt chanOf i d p a = some (d', p')) :
    (∃ at₀ sent row todo, p = .relay (.publish at₀ sent (row :: todo)) ∧ a = .run ∧
      publishRow i (d.chans (chanOf i)) d row
        (.publish at₀ (sent ++ [(row, d.relay.nextSend)]) todo) = (d', p')) ∨
    (∃ pc r, p = .relay pc ∧ Relay.stmt i d.relay pc a = some r ∧
      d' = { d with relay := r.1 } ∧ p' = .relay r.2) ∨
    (∃ n pc, p = .drain n pc ∧ a = .run ∧ n < (d.chans (chanOf i)).drains ∧ d' = d ∧
      p' = .relay pc) ∨
    ∃ n pc, p = .drain n pc ∧ a = .abort ∧ d' = { d with relay := d.relay.rollback i } ∧
      p' = .relay .aborted := by
  unfold stmt at h
  split at h
  · exact Or.inl ⟨_, _, _, _, rfl, rfl, Option.some.inj h⟩
  · obtain ⟨r, hr, h⟩ := Option.map_eq_some_iff.mp h
    cases h
    exact Or.inr (Or.inl ⟨_, r, rfl, hr, rfl, rfl⟩)
  · obtain ⟨hlt, h⟩ := Option.ite_none_right_eq_some.mp h
    cases h
    exact Or.inr (Or.inr (Or.inl ⟨_, _, rfl, rfl, hlt, rfl, rfl⟩))
  · cases h
    exact Or.inr (Or.inr (Or.inr ⟨_, _, rfl, rfl, rfl, rfl⟩))
  · cases h

/-- `publishRow` is a publish, and a rejection if the channel is closed. -/
theorem publishRow_run {row : OutboxRow} {at₀ : ℕ} {sent : List (OutboxRow × ℕ)}
    {todo : List OutboxRow} {ch : Channel} {d : Db} {p : Pc}
    (hpc : s.proc i = .relay (.publish at₀ sent (row :: todo)))
    (h : publishRow i ch s.shared row
      (.publish at₀ (sent ++ [(row, s.shared.relay.nextSend)]) todo) = (d, p)) :
    ∃ bs, Relay.machine.Run Machine.Always (forget s) bs
      (forget ⟨d, Function.update s.proc i p⟩) := by
  have hforget : (forget s).proc i = .publish at₀ sent (row :: todo) := congrArg Pc.forget hpc
  have hrun := relay_step (s := s) (i := i) (a := .run) (by rw [hforget]; rfl)
  rw [forget_call]
  unfold publishRow at h
  split at h
  · next message _ =>
      cases h
      refine ⟨[.call i .run] ++ [.env (.reject s.shared.relay.nextSend message)],
        hrun.trans (Machine.Run.single trivial ?_)⟩
      change (Relay.env _ (.reject _ message)).map _ = _
      simp only [Relay.env, Relay.Db.publish, forget, Function.update_self, Option.bind_some]
      rw [if_pos ⟨Or.inr (by decide), trivial⟩]
      rfl
  · cases h
    -- a wait for the buffer is forgotten
    by_cases hfull : ch.full = true
    · rw [if_pos hfull]
      exact ⟨_, hrun⟩
    · rw [if_neg hfull]
      exact ⟨_, hrun⟩

/-- The channel's outstanding messages below `N` are rejected. -/
def cutBelow (chanOf : ℕ → ℕ) (c : ℕ) (message : String) (N : ℕ) (d : Relay.Db) : Relay.Db :=
  { d with
    sends := fun n => if n < N then (d.sends n).map (cutOff chanOf c message) else d.sends n }

/-- Rejecting the outstanding messages below `N + 1` is rejecting those below `N` and then, if it
is outstanding, message `N`. -/
theorem cutBelow_succ (c : ℕ) (message : String) (N : ℕ) (d : Relay.Db) :
    (cutBelow chanOf c message (N + 1) d).sends =
      Function.update (cutBelow chanOf c message N d).sends N
        ((d.sends N).map (cutOff chanOf c message)) := by
  funext n
  by_cases hn : n = N
  · subst hn
    rw [Function.update_self]
    exact if_pos (Nat.lt_succ_self _)
  · rw [Function.update_of_ne hn]
    unfold cutBelow
    by_cases hlt : n < N
    · simp only [if_pos hlt, if_pos (Nat.lt_succ_of_lt hlt)]
    · simp only [if_neg hlt, if_neg (show ¬ n < N + 1 by omega)]

/-- The rejections that a closed channel brings can be made one after another, each of them a step
of the broker in `Outbox.Relay`. -/
theorem cutBelow_run {c : ℕ} {message : String} (hmsg : isChannelClosed message = true)
    (d : Relay.Db) (proc : ℕ → Relay.Pc) (N : ℕ) :
    ∃ bs, Relay.machine.Run Machine.Always ⟨d, proc⟩ bs ⟨cutBelow chanOf c message N d, proc⟩ := by
  -- one message at a time: the run for `N` is extended by the rejection of message `N`
  induction N with
  | zero => exact ⟨[], Machine.Run.refl⟩
  | succ N ih =>
      obtain ⟨bs, hbs⟩ := ih
      have hat : (cutBelow chanOf c message N d).sends N = d.sends N := if_neg (Nat.lt_irrefl N)
      have hsucc : cutBelow chanOf c message (N + 1) d =
          { cutBelow chanOf c message N d with
            sends := Function.update (cutBelow chanOf c message N d).sends N
              ((d.sends N).map (cutOff chanOf c message)) } := by
        rw [← cutBelow_succ]
        rfl
      rw [hsucc]
      cases hx : d.sends N with
      | none =>
          -- no message has this number yet
          rw [Option.map_none, ← hx, ← hat, Function.update_eq_self]
          exact ⟨bs, hbs⟩
      | some x =>
          rw [Option.map_some, cutOff]
          split
          · next hout =>
              refine ⟨bs ++ [.env (.reject N message)], hbs.step trivial ?_⟩
              change (Relay.env _ (.reject N message)).map _ = _
              simp only [Relay.env, hat, hx, Option.bind_some]
              rw [if_pos ⟨Or.inl hmsg, hout.2⟩]
              rfl
          -- it is another channel's, or it has settled already
          · rw [← hx, ← hat, Function.update_eq_self]
            exact ⟨bs, hbs⟩

/-- That a channel closes is, when the channel is forgotten, a run of `Outbox.Relay` in which
every message outstanding on it is rejected. -/
theorem close_run {c : ℕ} {message : String} (hmsg : isChannelClosed message = true)
    {d : Relay.Db} (hunsent : ∀ n, d.nextSend ≤ n → d.sends n = none) (proc : ℕ → Relay.Pc) :
    ∃ bs, Relay.machine.Run Machine.Always ⟨d, proc⟩ bs
      ⟨{ d with sends := fun n => (d.sends n).map (cutOff chanOf c message) }, proc⟩ := by
  have hall : cutBelow chanOf c message d.nextSend d =
      { d with sends := fun n => (d.sends n).map (cutOff chanOf c message) } := by
    -- no message is numbered from `nextSend` on, so the bound may be dropped
    unfold cutBelow
    congr 1
    funext n
    split
    · rfl
    · next hlt =>
        rw [hunsent n (by omega)]
        rfl
  rw [← hall]
  exact cutBelow_run hmsg d proc d.nextSend

/-- A pass that waits is between two rows. -/
def Waiting (s : St) : Prop :=
  ∀ i n pc, s.proc i = .drain n pc → ∃ at₀ sent todo, pc = .publish at₀ sent todo

/-- A statement of a pass is a run of `Outbox.Relay` once the waits are forgotten: of no step if a
wait ends, of two if a publish meets a closed channel. -/
theorem forget_stmt {a : Relay.Stmt} {d : Db} {p : Pc} (hwait : Waiting s)
    (h : stmt chanOf i s.shared (s.proc i) a = some (d, p)) :
    ∃ bs, Relay.machine.Run Machine.Always (forget s) bs
      (forget ⟨d, Function.update s.proc i p⟩) := by
  rcases stmt_cases h with ⟨at₀, sent, row, todo, hpc, -, hpub⟩ | ⟨pc, r, hpc, hr, rfl, rfl⟩ |
    ⟨n, pc, hpc, -, -, rfl, rfl⟩ | ⟨n, pc, hpc, rfl, rfl, rfl⟩
  · exact publishRow_run hpc hpub
  · have hforget : (forget s).proc i = pc := congrArg Pc.forget hpc
    rw [forget_call]
    exact ⟨_, relay_step (hforget ▸ hr)⟩
  · have hforget : (forget s).proc i = pc := congrArg Pc.forget hpc
    rw [forget_call]
    change ∃ bs, Relay.machine.Run _ _ bs ⟨_, Function.update _ i pc⟩
    rw [← hforget, Function.update_eq_self]
    exact ⟨[], Machine.Run.refl⟩
  · have hforget : (forget s).proc i = pc := congrArg Pc.forget hpc
    rw [forget_call]
    refine ⟨_, relay_step (a := .abort) ?_⟩
    rw [hforget]
    obtain ⟨at₀, sent, todo, rfl⟩ := hwait i n pc hpc
    cases todo <;> rfl

/-- Every step is a run of `Outbox.Relay`. -/
theorem forget_step {l : Label} (hwait : Waiting s)
    (hunsent : ∀ n, (forget s).shared.nextSend ≤ n → (forget s).shared.sends n = none)
    (hn : (machine chanOf).next s l = some t) :
    ∃ bs, Relay.machine.Run Machine.Always (forget s) bs (forget t) := by
  cases l with
  | call i a =>
      obtain ⟨d, p, hst, rfl⟩ := Procs.next_call hn
      exact forget_stmt hwait hst
  | env e =>
      obtain ⟨d, hd, rfl⟩ := Procs.next_env hn
      change env chanOf s.shared e = some d at hd
      cases e with
      | relay e =>
          obtain ⟨d', hd', rfl⟩ := Option.map_eq_some_iff.mp hd
          refine ⟨_, Machine.Run.single (a := .env e) trivial ?_⟩
          change (Relay.env s.shared.relay e).map _ = _
          rw [hd']
          rfl
      | fill c =>
          simp only [env, Option.ite_none_right_eq_some] at hd
          obtain ⟨-, hd⟩ := hd
          cases hd
          exact ⟨[], Machine.Run.refl⟩
      | drain c =>
          simp only [env, Option.ite_none_right_eq_some] at hd
          obtain ⟨-, hd⟩ := hd
          cases hd
          exact ⟨[], Machine.Run.refl⟩
      | close c message =>
          simp only [env, Option.ite_none_right_eq_some] at hd
          obtain ⟨⟨-, hmsg⟩, hd⟩ := hd
          cases hd
          exact close_run hmsg hunsent _

/-- If `publishRow` has to wait, the channel was open, the pass goes on afterwards where it would
have without the wait, and it waits for the next 'drain'. -/
theorem publishRow_waiting {ch : Channel} {d d' : Db} {row : OutboxRow} {pc : Relay.Pc} {p : Pc}
    (h : publishRow i ch d row pc = (d', p)) {n : ℕ} {pc' : Relay.Pc} (hp : p = .drain n pc') :
    pc' = pc ∧ ch.closed = none ∧ n = ch.drains := by
  subst hp
  unfold publishRow at h
  split at h
  · cases h
  · next hclosed =>
      split at h
      · cases h
        exact ⟨rfl, hclosed, rfl⟩
      · cases h

/-- A pass begins to wait where it publishes, and its channel is open. -/
theorem stmt_waiting {a : Relay.Stmt} {d d' : Db} {p : Pc} {n : ℕ} {pc : Relay.Pc}
    (h : stmt chanOf i d p a = some (d', .drain n pc)) :
    (∃ at₀ sent todo, pc = .publish at₀ sent todo) ∧ (d.chans (chanOf i)).closed = none := by
  rcases stmt_cases h with ⟨at₀, sent, row, todo, -, -, hpub⟩ | ⟨pc', r, -, -, -, hp⟩ |
    ⟨n', pc', -, -, -, -, hp⟩ | ⟨n', pc', -, -, -, hp⟩
  · obtain ⟨rfl, hclosed, -⟩ := publishRow_waiting hpub rfl
    exact ⟨⟨_, _, _, rfl⟩, hclosed⟩
  · cases hp
  · cases hp
  · cases hp

/-- Passes wait between two rows only, after every step of every party. -/
theorem Waiting.next {l : Label} (h : Waiting s) (hn : (machine chanOf).next s l = some t) :
    Waiting t := by
  cases l with
  | call i a =>
      obtain ⟨d, p, hst, rfl⟩ := Procs.next_call hn
      refine Procs.forall_update (Q := fun _ (q : Pc) => ∀ n pc, q = .drain n pc →
        ∃ at₀ sent todo, pc = .publish at₀ sent todo) ?_ fun j _ => h j
      rintro n pc rfl
      exact (stmt_waiting hst).1
  | env e =>
      obtain ⟨d, -, rfl⟩ := Procs.next_env hn
      exact h

/-- Without the waits and the channels a reachable state is one of `Outbox.Relay`. -/
theorem reachable_forget (h : (machine chanOf).Reachable s) :
    Waiting s ∧ Relay.machine.Reachable (forget s) := by
  refine h.invariant (P := fun s => Waiting s ∧ Relay.machine.Reachable (forget s)) ?_ ?_
  · intro s hinit
    refine ⟨?_, Machine.Reachable.init ⟨hinit.1, ?_⟩⟩
    · intro i n pc hpc
      rw [hinit.2 i] at hpc
      cases hpc
    · intro i
      exact congrArg Pc.forget (hinit.2 i)
  · rintro t l u hn ⟨hwait, hreach⟩
    obtain ⟨s₀, as, hinit, hrun⟩ := hreach
    have hholds := Relay.holds hinit hrun
    obtain ⟨bs, hbs⟩ := forget_step hwait hholds.1.unsent hn
    exact ⟨hwait.next hn, s₀, as ++ bs, hinit, hrun.trans hbs⟩

/-! ## Passes that are stuck -/

/-- The pass is under way, its channel is closed and all it has sent has settled, but it cannot
take another step. -/
def Stuck (chanOf : ℕ → ℕ) (s : St) (i : ℕ) : Prop :=
  (s.proc i).forget.Open ∧ (s.shared.chans (chanOf i)).closed ≠ none ∧
    Relay.AllSeen i s.shared.relay ∧ stmt chanOf i s.shared (s.proc i) .run = none

/-- No channel closes on a pass that waits for its 'drain'. -/
def Heeded (chanOf : ℕ → ℕ) (s : St) (l : Label) : Prop :=
  ∀ c message, l = .env (.close c message) → ∀ i n pc, chanOf i = c → s.proc i = .drain n pc →
    n < (s.shared.chans c).drains

/-- A pass that does not wait for 'drain' and cannot step is held up by `Outbox.Relay` itself,
because a publish is always possible. -/
theorem stmt_relay_none {d : Db} {pc : Relay.Pc} (h : stmt chanOf i d (.relay pc) .run = none) :
    Relay.stmt i d.relay pc .run = none := by
  cases pc with
  | publish at₀ sent todo =>
      cases todo with
      | nil => cases h
      | cons row todo => cases h
  | _ => simpa only [stmt, Option.map_eq_none_iff] using h

/-- Of a closed channel every pass has had its 'drain'. -/
def Drained (chanOf : ℕ → ℕ) (s : St) : Prop :=
  ∀ i n pc, s.proc i = .drain n pc → (s.shared.chans (chanOf i)).closed ≠ none →
    n < (s.shared.chans (chanOf i)).drains

/-- No statement of a pass changes a channel: buffers fill and drain, and channels close, from
outside. -/
theorem stmt_chans {a : Relay.Stmt} {d d' : Db} {p p' : Pc}
    (h : stmt chanOf i d p a = some (d', p')) : d'.chans = d.chans := by
  rcases stmt_cases h with ⟨at₀, sent, row, todo, -, -, hpub⟩ | ⟨pc, r, -, -, rfl, -⟩ |
    ⟨n, pc, -, -, -, rfl, -⟩ | ⟨n, pc, -, -, rfl, -⟩
  · unfold publishRow at hpub
    split at hpub <;> cases hpub <;> rfl
  · rfl
  · rfl
  · rfl

/-- A statement keeps it: a pass begins to wait on an open channel only, and the waits of the
others are untouched. -/
theorem Drained.call {a : Relay.Stmt} {d : Db} {p : Pc} (h : Drained chanOf s)
    (hst : stmt chanOf i s.shared (s.proc i) a = some (d, p)) :
    Drained chanOf ⟨d, Function.update s.proc i p⟩ := by
  intro j n pc hpc hclosed
  change Function.update s.proc i p j = .drain n pc at hpc
  change (d.chans (chanOf j)).closed ≠ none at hclosed
  change n < (d.chans (chanOf j)).drains
  rw [stmt_chans hst] at hclosed ⊢
  by_cases hj : j = i
  · subst hj
    rw [Function.update_self] at hpc
    subst hpc
    exact absurd (stmt_waiting hst).2 hclosed
  · rw [Function.update_of_ne hj] at hpc
    exact h j n pc hpc hclosed

/-- A change of one channel keeps it if the passes that wait on that channel have had their
'drain', should it be closed now. -/
theorem Drained.setChan {c : ℕ} {ch : Channel} {relay : Relay.Db} (h : Drained chanOf s)
    (hch : ∀ i n pc, chanOf i = c → s.proc i = .drain n pc → ch.closed ≠ none → n < ch.drains) :
    Drained chanOf ⟨{ relay, chans := Function.update s.shared.chans c ch }, s.proc⟩ := by
  intro i n pc hpc hclosed
  change (Function.update s.shared.chans c ch (chanOf i)).closed ≠ none at hclosed
  change n < (Function.update s.shared.chans c ch (chanOf i)).drains
  by_cases hc : chanOf i = c
  · rw [hc, Function.update_self] at hclosed ⊢
    exact hch i n pc hc hpc hclosed
  · rw [Function.update_of_ne hc] at hclosed ⊢
    exact h i n pc hpc hclosed

/-- It survives every step that heeds the condition; only a close can endanger it, and there the
condition is what is asked for. -/
theorem Drained.next {l : Label} (h : Drained chanOf s) (hok : Heeded chanOf s l)
    (hn : (machine chanOf).next s l = some t) : Drained chanOf t := by
  cases l with
  | call i a =>
      obtain ⟨d, p, hst, rfl⟩ := Procs.next_call hn
      exact h.call hst
  | env e =>
      obtain ⟨d, hd, rfl⟩ := Procs.next_env hn
      change env chanOf s.shared e = some d at hd
      cases e with
      | relay e =>
          obtain ⟨relay, -, rfl⟩ := Option.map_eq_some_iff.mp hd
          exact h
      | fill c =>
          obtain ⟨hopen, hd⟩ := Option.ite_none_right_eq_some.mp hd
          cases hd
          exact h.setChan fun i n pc _ _ hclosed => absurd hopen hclosed
      | drain c =>
          obtain ⟨⟨hopen, -⟩, hd⟩ := Option.ite_none_right_eq_some.mp hd
          cases hd
          exact h.setChan fun i n pc _ _ hclosed => absurd hopen hclosed
      | close c message =>
          obtain ⟨-, hd⟩ := Option.ite_none_right_eq_some.mp hd
          cases hd
          exact h.setChan fun i n pc hover hpc _ => hok c message rfl i n pc hover hpc

/-- In every run in which no channel closes on a pass that waits for its 'drain', no pass is
stuck. -/
theorem no_pass_stuck (chanOf : ℕ → ℕ) (s₀ s : St) (as : List Label)
    (hinit : (machine chanOf).Init s₀) (hrun : (machine chanOf).Run (Heeded chanOf) s₀ as s)
    (i : ℕ) : ¬ Stuck chanOf s i := by
  rintro ⟨hopen, hclosed, hseen, hnone⟩
  have hdrained : Drained chanOf s := by
    refine hrun.invariant (P := Drained chanOf) (fun _ _ _ hok hn h => h.next hok hn) ?_
    intro j n pc hpc
    rw [hinit.2 j] at hpc
    cases hpc
  cases hpc : s.proc i with
  | drain n pc =>
      rw [hpc] at hnone
      have hlt := hdrained i n pc hpc hclosed
      simp only [stmt, if_pos hlt] at hnone
      cases hnone
  | relay pc =>
      obtain ⟨-, r₀, bs, hinit', hrun'⟩ := reachable_forget ⟨s₀, as, hinit, hrun.always⟩
      have hl : Relay.Loc i s.shared.relay pc := by
        have hloc := (Relay.holds hinit' hrun').2 i
        have hforget : (forget s).proc i = pc := congrArg Pc.forget hpc
        rwa [hforget] at hloc
      rw [hpc] at hopen hnone
      have hready := Relay.stmt_ready hl hopen hseen
      rw [stmt_relay_none hnone] at hready
      cases hready

/-! ## A 'drain' that never comes -/

/-- One row, one channel. -/
def oneRow : St where
  shared := ⟨Relay.emptyOutbox.shared, fun _ => ⟨none, false, 0⟩⟩
  proc _ := .relay .idle

theorem oneRow_init (chanOf : ℕ → ℕ) : (machine chanOf).Init oneRow :=
  ⟨Relay.emptyOutbox_init.1, fun _ => rfl⟩

/-- The pass publishes its row into a full buffer. -/
def publishesFull : List Label :=
  [.env (.relay (.insert Relay.orderPlacedRow)), .call 0 (.start 50), .call 0 .run, .call 0 .run,
    .call 0 .run, .env (.fill 0), .call 0 .run]

/-- The channel closes on the pass that waits, and settles the row it has sent. -/
theorem no_pass_stuck_closed : ∃ s : St,
    (machine fun _ => 0).exec (fun _ _ => true) oneRow
      (publishesFull ++ [.env (.close 0 "Channel closed")]) = some s ∧ Stuck (fun _ => 0) s 0 := by
  refine ⟨_, rfl, trivial, Option.some_ne_none _, ?_, rfl⟩
  intro n x hx _
  by_cases hn : n = 0
  · subst hn
    cases hx
    exact Option.some_ne_none _
  · change Option.map _ (Function.update (fun _ : ℕ => (none : Option Send)) 0 _ n) = some x at hx
    rw [Function.update_of_ne hn] at hx
    cases hx

/-- No channel closes. -/
def notClose : Label → Bool
  | .env (.close _ _) => false
  | _ => true

theorem notClose_ok (chanOf : ℕ → ℕ) (s : St) (l : Label) (h : notClose l = true) :
    Heeded chanOf s l := by
  rintro c message rfl
  cases h

/-- It closes after the 'drain', and the pass goes on to its ROLLBACK. -/
theorem no_pass_stuck_drained : ∃ t s : St,
    (machine fun _ => 0).exec (fun _ => notClose) oneRow
      (publishesFull ++ [.env (.drain 0), .call 0 .run]) = some t ∧
    (machine fun _ => 0).next t (.env (.close 0 "Channel closed")) = some s ∧
    (s.proc 0).forget.Open ∧ ¬ Stuck (fun _ => 0) s 0 := by
  have hrun : ∃ t s : St, (machine fun _ => 0).exec (fun _ => notClose) oneRow
      (publishesFull ++ [.env (.drain 0), .call 0 .run]) = some t ∧
      (machine fun _ => 0).next t (.env (.close 0 "Channel closed")) = some s ∧
      (s.proc 0).forget.Open ∧ ∃ pc, t.proc 0 = .relay pc := ⟨_, _, rfl, rfl, trivial, _, rfl⟩
  obtain ⟨t, s, hexec, hn, hopen, pc, hpc⟩ := hrun
  have hr := Machine.exec_run (notClose_ok fun _ => 0) hexec
  refine ⟨t, s, hexec, hn, hopen, ?_⟩
  refine no_pass_stuck (fun _ => 0) oneRow s _ (oneRow_init _) (hr.step ?_ hn) 0
  -- nobody waits when it closes
  intro c message _ i n pc' _ hwait
  by_cases hi : i = 0
  · subst hi
    rw [hpc] at hwait
    cases hwait
  · have hidle : t.proc i = oneRow.proc i := by
      refine Procs.Run.proc_eq hr ?_
      simp [publishesFull, hi]
    rw [hidle] at hwait
    cases hwait

end Backpressure

end Marketplace.Outbox
