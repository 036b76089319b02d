import Marketplace.Sse.Service
import Mathlib.Data.List.DropRight
import Mathlib.Data.List.Range

/-!
# Sse.Resume — what a client that resumes is sent

Events are numbered in the order of their publication, and a buffer holds the latest of its
order (`Buffered`). So the replay is every event of the order after the client's last one, if
the buffer still has them, and what is published after the subscription follows without a gap.
-/

namespace Marketplace.Sse

open Core

/-! ## The latest elements of a list -/

section

variable {α : Type} {n : ℕ} {l : List α} {a : α} {p : α → Bool}

/-- Append, and drop the oldest element where there are too many. -/
theorem rtake_concat (hn : 0 < n) :
    (if n < (l.rtake n ++ [a]).length then (l.rtake n ++ [a]).tail else l.rtake n ++ [a]) =
      (l ++ [a]).rtake n := by
  unfold List.rtake
  rw [List.length_append, List.length_drop, List.length_append, List.length_singleton]
  by_cases hlen : n ≤ l.length
  · rw [if_pos (by omega), List.tail_append_of_ne_nil, List.tail_drop,
      List.drop_append_of_le_length (by omega)]
    · congr 2
      omega
    · intro hnil
      rw [List.drop_eq_nil_iff] at hnil
      omega
  · rw [if_neg (by omega), List.drop_append_of_le_length (by omega)]
    congr 2
    omega

/-- What is wanted is the end of the list, and short enough to be among the latest. -/
theorem filter_rtake (hup : l.Pairwise fun a b => p a = true → p b = true)
    (hlen : (l.filter p).length ≤ n) : (l.rtake n).filter p = l.filter p := by
  unfold List.rtake
  generalize hk : l.length - n = k
  have hsplit := List.take_append_drop k l
  have hfilter : l.filter p = (l.take k).filter p ++ (l.drop k).filter p := by
    rw [← List.filter_append, hsplit]
  have hnone : (l.take k).filter p = [] := by
    rw [List.filter_eq_nil_iff]
    intro a ha hp
    -- otherwise all that follows is wanted, and that is `n` elements more
    have hall : (l.drop k).filter p = l.drop k := by
      rw [List.filter_eq_self]
      intro b hb
      rw [← hsplit, List.pairwise_append] at hup
      exact hup.2.2 a ha b hb hp
    have hsome : 0 < ((l.take k).filter p).length :=
      List.length_pos_of_mem (List.mem_filter.mpr ⟨ha, hp⟩)
    have hpos : 0 < (l.take k).length := List.length_pos_of_mem ha
    rw [hfilter, List.length_append, hall, List.length_drop] at hlen
    rw [List.length_take] at hpos
    omega
  rw [hfilter, hnone, List.nil_append]

end

/-! ## The history and the buffers -/

variable {dbl : Doubles} {s s₁ s₂ t : St} {l : Label} {as : List Label} {c : ℕ} {o : OrderId}
  {header : Option HeaderValue} {last : ℚ}

/-- Events are numbered from 1, and every buffer has the latest ones of its order. -/
structure Buffered (s : St) : Prop where
  ids : s.published.map OrderStatusEvent.id = List.range' 1 s.service.seq
  buffers : ∀ o, (s.service.buffers o).getD [] = (s.eventsOf o).rtake bufferLimit

/-- What every step but `publish` leaves alone. -/
theorem Buffered.same (h : Buffered s) (hservice : t.service = s.service)
    (hpublished : t.published = s.published) : Buffered t := by
  refine ⟨?_, ?_⟩
  · rw [hpublished, hservice]
    exact h.ids
  · intro o
    rw [hservice, St.eventsOf, hpublished]
    exact h.buffers o

/-- The event is the next one, and ends the buffer of its order. -/
theorem publish_buffers (service : OrderEventsService) (status : String) (now : ℕ)
    {events : List OrderStatusEvent}
    (h : (service.buffers o).getD [] = events.rtake bufferLimit) :
    (((service.publish o status now).1.buffers) o).getD [] =
      (events ++ [(service.publish o status now).2]).rtake bufferLimit := by
  simp only [OrderEventsService.publish, Function.update_self, Option.getD_some, h]
  exact rtake_concat (by decide)

theorem publish_other (service : OrderEventsService) (status : String) (now : ℕ) {o' : OrderId}
    (ho : o' ≠ o) : (service.publish o status now).1.buffers o' = service.buffers o' :=
  Function.update_of_ne ho _ _

/-- A publish gives the event the next number and keeps the last hundred of its order. -/
theorem Buffered.publish {status : String} (h : Buffered s)
    (hn : (machine dbl).next s (.publish o status) = some t) : Buffered t := by
  obtain rfl := Option.some.inj hn
  refine ⟨?_, ?_⟩
  · change (s.published ++ [OrderStatusEvent.mk (s.service.seq + 1) o status s.now]).map
      OrderStatusEvent.id = List.range' 1 (s.service.seq + 1)
    rw [List.map_append, h.ids, List.range'_concat, List.map_singleton, Nat.one_mul,
      Nat.add_comm 1]
  · intro o'
    rw [St.eventsOf, List.filter_append, List.filter_singleton]
    by_cases ho : o' = o
    · subst ho
      rw [show decide ((s.service.publish o' status s.now).2.orderId = o') = true from
        decide_eq_true rfl]
      exact publish_buffers s.service status s.now (h.buffers o')
    · rw [show decide ((s.service.publish o status s.now).2.orderId = o') = false from
        decide_eq_false (Ne.symm ho), cond_false, List.append_nil]
      exact (congrArg (Option.getD · []) (publish_other s.service status s.now ho)).trans
        (h.buffers o')

/-- Every step keeps the buffers: only a publish touches them. -/
theorem Buffered.next (h : Buffered s) (hn : (machine dbl).next s l = some t) : Buffered t := by
  cases l with
  | publish orderId status => exact h.publish hn
  | connect c orderId header =>
      simp only [machine, Sse.next] at hn
      split at hn
      · cases hn
      · cases hn
        exact h.same rfl rfl
  | close c =>
      simp only [machine, Sse.next, Option.map_eq_some_iff] at hn
      obtain ⟨client, -, rfl⟩ := hn
      exact h.same rfl rfl
  | tick dt =>
      cases hn
      exact h.same rfl rfl

/-- At the start there are no buffers and no events. -/
theorem Buffered.init (h : (machine dbl).Init s) : Buffered s := by
  obtain ⟨hservice, -, hpublished⟩ := h
  refine ⟨?_, ?_⟩
  · rw [hservice, hpublished]
    rfl
  · intro o
    rw [hservice, St.eventsOf, hpublished]
    rfl

theorem reachable_buffered (h : (machine dbl).Reachable s) : Buffered s :=
  h.invariant (fun _ => Buffered.init) fun _ _ _ hn hs => hs.next hn

/-- Ids grow along the history. -/
theorem Buffered.increasing (h : Buffered s) : s.published.Pairwise fun a b => a.id < b.id := by
  have hids : (s.published.map OrderStatusEvent.id).Pairwise (· < ·) := by
    rw [h.ids]
    exact List.pairwise_lt_range'
  exact List.pairwise_map.mp hids

theorem Buffered.eventsOf_increasing (h : Buffered s) :
    (s.eventsOf o).Pairwise fun a b => a.id < b.id := h.increasing.filter _

/-- What is published later has an id above all that were given. -/
theorem Buffered.later {live : List OrderStatusEvent} {e : OrderStatusEvent} (h₁ : Buffered s₁)
    (h : Buffered s) (hlive : s.published = s₁.published ++ live) (he : e ∈ live) :
    s₁.service.seq < e.id := by
  have hids := h.ids
  rw [hlive, List.map_append, h₁.ids] at hids
  have hdrop := congrArg (List.drop s₁.service.seq) hids
  rw [List.drop_left' List.length_range', List.drop_range'] at hdrop
  have hmem : e.id ∈ live.map OrderStatusEvent.id := List.mem_map_of_mem he
  rw [hdrop, List.mem_range'_1] at hmem
  omega

/-- The events of the order after the last one the client has seen. -/
def St.after (s : St) (o : OrderId) (last : ℚ) : List OrderStatusEvent :=
  (s.eventsOf o).filter fun e => last < (e.id : ℚ)

/-- The buffer has all that the client has missed. -/
theorem historyAfter_eq (h : Buffered s) (hlen : (s.after o last).length ≤ bufferLimit) :
    s.service.historyAfter o last = s.after o last := by
  unfold OrderEventsService.historyAfter
  rw [h.buffers o]
  refine filter_rtake ?_ hlen
  refine h.eventsOf_increasing.imp ?_
  intro a b hab ha
  have hlt : (a.id : ℚ) < (b.id : ℚ) := by exact_mod_cast hab
  exact decide_eq_true ((of_decide_eq_true ha).trans hlt)

/-! ## One client -/

/-- The client does not close its request. -/
def StaysOpen (c : ℕ) (_ : St) (l : Label) : Prop := l ≠ .close c

/-- Since `s₁`, the client has been written every event of its order. -/
def Following (s₁ : St) (c : ℕ) (o : OrderId) (written : List String) (s : St) : Prop :=
  ∃ live, s.published = s₁.published ++ live ∧
    s.clients c = some ⟨o, true, written ++
      (live.filter fun e => e.orderId = o).flatMap writeSse⟩

/-- A connected client is written every event of its order, in the order of publication, and
nothing else. -/
theorem Following.next {written : List String} (h : Following s₁ c o written s)
    (hok : StaysOpen c s l) (hn : (machine dbl).next s l = some t) :
    Following s₁ c o written t := by
  obtain ⟨live, hlive, hclient⟩ := h
  cases l with
  | publish orderId status =>
      obtain rfl := Option.some.inj hn
      generalize hr : s.service.publish orderId status s.now = r
      refine ⟨live ++ [r.2], ?_, ?_⟩
      · change s.published ++ [r.2] = _
        rw [hlive, List.append_assoc]
      · change (s.clients c).map (fun client => client.next r.2) = _
        rw [hclient, Option.map_some, List.filter_append, List.filter_singleton]
        unfold Client.next
        -- an event of another order is not written to this client
        by_cases ho : r.2.orderId = o
        · rw [if_pos ⟨rfl, ho⟩, decide_eq_true ho, cond_true, List.flatMap_append,
            List.flatMap_singleton, List.append_assoc]
        · rw [if_neg (fun h => ho h.2), decide_eq_false ho, cond_false, List.append_nil]
  | connect c' orderId header =>
      simp only [machine, Sse.next] at hn
      split at hn
      · cases hn
      · next hnone =>
          cases hn
          have hne : c ≠ c' := by
            rintro rfl
            rw [hclient] at hnone
            exact hnone rfl
          exact ⟨live, hlive, by rw [← hclient]; exact Function.update_of_ne hne _ _⟩
  | close c' =>
      simp only [machine, Sse.next, Option.map_eq_some_iff] at hn
      obtain ⟨client, -, rfl⟩ := hn
      have hne : c ≠ c' := by
        rintro rfl
        exact hok rfl
      exact ⟨live, hlive, by rw [← hclient]; exact Function.update_of_ne hne _ _⟩
  | tick dt =>
      cases hn
      exact ⟨live, hlive, hclient⟩

/-- The client starts with what it has missed. -/
theorem Following.connect (h : Buffered s₁) (hlast : lastEventId dbl header = some last)
    (hlen : (s₁.after o last).length ≤ bufferLimit)
    (hn : (machine dbl).next s₁ (.connect c o header) = some s₂) :
    Following s₁ c o (hello ++ (s₁.after o last).flatMap writeSse) s₂ := by
  simp only [machine, Sse.next] at hn
  split at hn
  · cases hn
  · cases hn
    refine ⟨[], (List.append_nil _).symm, ?_⟩
    change Function.update s₁.clients c _ c = _
    rw [Function.update_self, orderEventsStream, hlast]
    dsimp only
    rw [historyAfter_eq h hlen, List.filter_nil, List.flatMap_nil, List.append_nil]

/-- Every buffer holds the latest hundred events of its order. A client that resumes is written
what it has missed and then every later event, in the order of their ids; if its last id is not
ahead of the process, these are all the events after that id. -/
theorem sse_resume (dbl : Doubles) :
    (∀ s, (machine dbl).Reachable s → ∀ o,
      (s.service.buffers o).getD [] = (s.eventsOf o).rtake 100 ∧
      ((s.service.buffers o).getD []).Pairwise fun a b => a.id < b.id) ∧
    (∀ s₁ s₂ s as c o header last, (machine dbl).Reachable s₁ →
      lastEventId dbl header = some last → (s₁.after o last).length ≤ 100 →
      (machine dbl).next s₁ (.connect c o header) = some s₂ →
      (machine dbl).Run (StaysOpen c) s₂ as s →
      ∃ live client, s.eventsOf o = s₁.eventsOf o ++ live ∧ s.clients c = some client ∧
        client.written = hello ++ (s₁.after o last ++ live).flatMap writeSse ∧
        (s₁.after o last ++ live).Pairwise (fun a b => a.id < b.id) ∧
        (last ≤ (s₁.service.seq : ℚ) → s₁.after o last ++ live = s.after o last)) := by
  refine ⟨?_, ?_⟩
  · intro s h o
    have hs := reachable_buffered h
    refine ⟨hs.buffers o, ?_⟩
    rw [hs.buffers o]
    exact hs.eventsOf_increasing.sublist (List.drop_sublist _ _)
  · intro s₁ s₂ s as c o header last h₁ hlast hlen hn hr
    have hs₁ := reachable_buffered h₁
    have hs := reachable_buffered ((h₁.next hn).run hr)
    obtain ⟨live, hlive, hclient⟩ := hr.invariant
      (P := Following s₁ c o (hello ++ (s₁.after o last).flatMap writeSse))
      (fun _ _ _ hok hn h => h.next hok hn) (Following.connect hs₁ hlast hlen hn)
    -- what the order has now is what it had when the client came, and what came later
    have hevents : s.eventsOf o = s₁.eventsOf o ++ live.filter fun e => e.orderId = o := by
      rw [St.eventsOf, hlive, List.filter_append]
      rfl
    have hincreasing := hs.eventsOf_increasing (o := o)
    rw [hevents] at hincreasing
    refine ⟨_, _, hevents, hclient, ?_, ?_, ?_⟩
    · rw [List.flatMap_append, List.append_assoc]
    · exact hincreasing.sublist (List.filter_sublist.append (List.Sublist.refl _))
    · intro hle
      unfold St.after
      rw [hevents, List.filter_append]
      congr 1
      symm
      rw [List.filter_eq_self]
      intro e he
      have hmem : e ∈ live := (List.mem_filter.mp he).1
      -- what came later has a number above all that the process had given
      have hlt : s₁.service.seq < e.id := hs₁.later hs hlive hmem
      have hcast : (s₁.service.seq : ℚ) < (e.id : ℚ) := by exact_mod_cast hlt
      exact decide_eq_true (hle.trans_lt hcast)

/-! ## Two clients -/

def freshProcess : St := ⟨.empty, fun _ => none, 0, []⟩

theorem freshProcess_init (dbl : Doubles) : (machine dbl).Init freshProcess :=
  ⟨rfl, fun _ => rfl, rfl⟩

/-- A client that comes with an id from before the restart is sent the first event, whose id
is not after its own. -/
theorem sse_resume_ahead : ∃ s client,
    (machine .unrounded).exec (fun _ _ => true) freshProcess
      [.connect 0 1 (some (.one "5")), .publish 1 "completed"] = some s ∧
    lastEventId .unrounded (some (.one "5")) = some 5 ∧ s.clients 0 = some client ∧
    client.written = hello ++ writeSse ⟨1, 1, "completed", 0⟩ ∧ s.after 1 5 = [] := by
  refine ⟨_, _, rfl, by decide +kernel, rfl, ?_, by decide +kernel⟩
  decide +kernel

/-- A client that has seen the first event of two, and the event after its subscription. -/
theorem sse_resume_second : ∃ s₁ s₂ s client,
    (machine .unrounded).exec (fun _ _ => true) freshProcess
      [.publish 1 "pending", .publish 1 "completed"] = some s₁ ∧
    (machine .unrounded).next s₁ (.connect 0 1 (some (.one "1"))) = some s₂ ∧
    (machine .unrounded).next s₂ (.publish 1 "refunded") = some s ∧ s.clients 0 = some client ∧
    client.written = hello ++
      writeSse ⟨2, 1, "completed", 0⟩ ++ writeSse ⟨3, 1, "refunded", 0⟩ := by
  have hbefore : ∃ s₁ s₂ s, (machine .unrounded).exec (fun _ _ => true) freshProcess
        [.publish 1 "pending", .publish 1 "completed"] = some s₁ ∧
      (machine .unrounded).next s₁ (.connect 0 1 (some (.one "1"))) = some s₂ ∧
      (machine .unrounded).next s₂ (.publish 1 "refunded") = some s ∧
      s₁.eventsOf 1 = [⟨1, 1, "pending", 0⟩, ⟨2, 1, "completed", 0⟩] ∧
      s.eventsOf 1 =
        [⟨1, 1, "pending", 0⟩, ⟨2, 1, "completed", 0⟩, ⟨3, 1, "refunded", 0⟩] :=
    ⟨_, _, _, rfl, rfl, rfl, rfl, rfl⟩
  obtain ⟨s₁, s₂, s, hexec, hconnect, hpublish, hearlier, hevents⟩ := hbefore
  have h₁ : (machine .unrounded).Reachable s₁ :=
    ⟨freshProcess, _, freshProcess_init _, Machine.exec_always hexec⟩
  have hafter : s₁.after 1 1 = [⟨2, 1, "completed", 0⟩] := by
    unfold St.after
    rw [hearlier]
    decide +kernel
  have hr : (machine .unrounded).Run (StaysOpen 0) s₂ [.publish 1 "refunded"] s :=
    Machine.Run.single (fun h => by cases h) hpublish
  obtain ⟨live, client, hlive, hclient, hwritten, -, -⟩ :=
    (sse_resume .unrounded).2 s₁ s₂ s _ 0 1 (some (.one "1")) 1 h₁ (by decide +kernel)
      (by rw [hafter]; decide) hconnect hr
  rw [hevents, hearlier] at hlive
  change [_, _] ++ [⟨3, 1, "refunded", 0⟩] = [_, _] ++ live at hlive
  obtain rfl := List.append_cancel_left hlive
  refine ⟨s₁, s₂, s, client, hexec, hconnect, hpublish, hclient, ?_⟩
  rw [hwritten, hafter]
  decide +kernel

end Marketplace.Sse
