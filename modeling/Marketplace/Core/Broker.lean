import Mathlib.Data.List.Perm.Basic
import Mathlib.Data.List.Nodup

/-!
# Core.Broker — an at-least-once queue with a dead-letter queue

A delivery is in flight until its consumer settles it or the channel dies. An
acknowledged message is gone, a requeued one comes back with a higher delivery
count, a discarded one is dead-lettered, and one whose channel died comes back.
Messages are delivered in any order.

* `numbers`: where every message is, all places in one list;
* `Conserved`: that list is a permutation of the messages that were published, so
  every message is in exactly one place. Every operation keeps it.
-/

namespace Core

universe u v

/-- Take the first element that satisfies `p` out of a list. -/
def pull {α : Type u} (p : α → Bool) : List α → Option (α × List α)
  | [] => none
  | x :: xs => if p x then some (x, xs) else (pull p xs).map fun r => (r.1, x :: r.2)

/-- Pulling an item takes it out of the list and leaves the rest, order apart. -/
theorem pull_perm {α : Type u} {p : α → Bool} {l rest : List α} {x : α}
    (h : pull p l = some (x, rest)) : l.Perm (x :: rest) ∧ p x = true := by
  induction l generalizing rest with
  | nil => cases h
  | cons y ys ih =>
      rw [pull] at h
      split at h
      · next hp =>
          cases h
          exact ⟨List.Perm.refl _, hp⟩
      · rw [Option.map_eq_some_iff] at h
        rcases h with ⟨⟨x', rest'⟩, hpull, heq⟩
        cases heq
        rcases ih hpull with ⟨hperm, hp⟩
        exact ⟨(hperm.cons y).trans (List.Perm.swap x' y rest'), hp⟩

/-- A message in the broker. `requeues` counts how often a consumer has put it back. -/
structure Item (μ : Type v) where
  number : ℕ
  content : μ
  deliveryCount : ℕ
  redelivered : Bool
  requeues : ℕ

/-- What becomes of a message in flight. When its channel dies, some brokers count
the delivery and others do not. -/
inductive Verdict where
  | ack
  | requeue
  | discard
  | returned (counted : Bool)
deriving DecidableEq, Repr

structure Broker (ι : Type u) (μ : Type v) where
  queue : List (Item μ)
  unacked : List (ι × Item μ)
  dlq : List (Item μ)
  acked : List (Item μ)
  next : ℕ

namespace Broker

variable {ι : Type u} {μ : Type v}

def empty : Broker ι μ := ⟨[], [], [], [], 0⟩

def publish (m : μ) (b : Broker ι μ) : Broker ι μ :=
  { b with queue := b.queue ++ [⟨b.next, m, 0, false, 0⟩], next := b.next + 1 }

/-- Hand message `n` of the queue to consumer `i`. -/
def deliver (i : ι) (n : ℕ) (b : Broker ι μ) : Option (Broker ι μ × Item μ) :=
  (pull (fun it => it.number == n) b.queue).map fun r =>
    ({ b with queue := r.2, unacked := b.unacked ++ [(i, r.1)] }, r.1)

/-- Put a message where the verdict sends it. -/
def place (it : Item μ) (b : Broker ι μ) : Verdict → Broker ι μ
  | .ack => { b with acked := b.acked ++ [it] }
  | .requeue =>
      { b with
        queue := b.queue ++ [{ it with
          deliveryCount := it.deliveryCount + 1, redelivered := true, requeues := it.requeues + 1 }] }
  | .discard => { b with dlq := b.dlq ++ [it] }
  | .returned counted =>
      { b with
        queue := b.queue ++ [{ it with
          deliveryCount := it.deliveryCount + counted.toNat, redelivered := true }] }

/-- The broker hears the verdict on the delivery of consumer `i`. A verdict on a delivery
that is not in flight any more has no effect. -/
def settle [DecidableEq ι] (i : ι) (v : Verdict) (b : Broker ι μ) : Broker ι μ :=
  match pull (fun e => decide (e.1 = i)) b.unacked with
  | none => b
  | some ((_, it), rest) => place it { b with unacked := rest } v

/-- All messages, with those in flight. -/
def items (b : Broker ι μ) : List (Item μ) :=
  b.queue ++ (b.unacked.map Prod.snd ++ (b.dlq ++ b.acked))

/-- The numbers of all messages, place after place. -/
def numbers (b : Broker ι μ) : List ℕ := b.items.map Item.number

/-- Every published message is in exactly one place, and every consumer has at most one. -/
structure Conserved (b : Broker ι μ) : Prop where
  once : b.numbers.Perm (List.range b.next)
  keys : (b.unacked.map Prod.fst).Nodup

variable {b b' : Broker ι μ} {i j : ι} {n : ℕ} {it it' : Item μ} {m : μ} {v : Verdict}

theorem mem_items : it ∈ b.items ↔
    it ∈ b.queue ∨ (∃ i, (i, it) ∈ b.unacked) ∨ it ∈ b.dlq ∨ it ∈ b.acked := by
  simp [items]

/-- A delivery moves one item, the one asked for, from the queue to the unacknowledged ones. -/
theorem deliver_spec (h : b.deliver i n = some (b', it)) :
    it.number = n ∧ ∃ rest, b.queue.Perm (it :: rest) ∧
      b' = { b with queue := rest, unacked := b.unacked ++ [(i, it)] } := by
  unfold deliver at h
  rw [Option.map_eq_some_iff] at h
  rcases h with ⟨⟨it', rest⟩, hpull, heq⟩
  cases heq
  rcases pull_perm hpull with ⟨hperm, hn⟩
  exact ⟨by simpa using hn, rest, hperm, rfl⟩

/-- A verdict finds its delivery in flight, or changes nothing. -/
theorem settle_cases [DecidableEq ι] (i : ι) (v : Verdict) (b : Broker ι μ) :
    b.settle i v = b ∨ ∃ it rest, b.unacked.Perm ((i, it) :: rest) ∧
      b.settle i v = place it { b with unacked := rest } v := by
  unfold settle
  split
  · exact Or.inl rfl
  · next j it rest hpull =>
      rcases pull_perm hpull with ⟨hperm, hj⟩
      have heq : j = i := by simpa using hj
      subst heq
      exact Or.inr ⟨it, rest, hperm, rfl⟩

/-- A new broker is conserved: it has numbered nothing yet. -/
theorem Conserved.empty : (Broker.empty : Broker ι μ).Conserved := by
  constructor
  · exact List.Perm.refl _
  · exact List.nodup_nil

/-- A publish takes the next number, which no item has. -/
theorem Conserved.publish (h : b.Conserved) : (b.publish m).Conserved := by
  constructor
  · have hperm : (b.publish m).numbers.Perm (b.numbers ++ [b.next]) := by
      unfold numbers items Broker.publish
      rw [List.perm_iff_count]
      intro k
      simp only [List.map_append, List.map_cons, List.map_nil, List.count_append]
      omega
    rw [show (b.publish m).next = b.next + 1 from rfl, List.range_succ]
    exact hperm.trans (h.once.append_right _)
  · exact h.keys

/-- A delivery moves an item and keeps all the numbers, provided the consumer is free. -/
theorem Conserved.deliver (h : b.Conserved) (hi : i ∉ b.unacked.map Prod.fst)
    (hd : b.deliver i n = some (b', it)) : b'.Conserved := by
  rcases deliver_spec hd with ⟨-, rest, hperm, rfl⟩
  constructor
  · refine List.Perm.trans ?_ h.once
    unfold numbers
    apply List.Perm.map
    unfold items
    simp only [List.map_append, List.map_cons, List.map_nil, List.append_assoc]
    -- the message moves from the queue to the end of those in flight
    refine List.Perm.trans ?_ (hperm.symm.append_right _)
    rw [List.cons_append]
    refine List.Perm.trans (List.Perm.append_left rest ?_) List.perm_middle
    exact List.perm_middle
  · rw [List.map_append]
    exact List.nodup_append.mpr ⟨h.keys, List.nodup_singleton i, by
      rintro x hx y hy rfl
      have hxi : x = i := List.mem_singleton.mp hy
      exact hi (hxi ▸ hx)⟩

/-- Wherever a settled item goes, it is there once. -/
theorem place_numbers (it : Item μ) (b : Broker ι μ) (v : Verdict) :
    (place it b v).numbers.Perm (it.number :: b.numbers) := by
  rw [List.perm_iff_count]
  intro k
  unfold numbers items
  cases v <;>
    simp only [place, List.map_append, List.map_cons, List.map_nil, List.count_append,
      List.count_cons, List.count_nil] <;> omega

theorem place_unacked (it : Item μ) (b : Broker ι μ) (v : Verdict) :
    (place it b v).unacked = b.unacked := by
  cases v <;> rfl

theorem place_next (it : Item μ) (b : Broker ι μ) (v : Verdict) :
    (place it b v).next = b.next := by
  cases v <;> rfl

/-- Settling a delivery, whatever the verdict, loses no item and doubles none. -/
theorem Conserved.settle [DecidableEq ι] (h : b.Conserved) : (b.settle i v).Conserved := by
  rcases settle_cases i v b with heq | ⟨it, rest, hperm, heq⟩
  · rw [heq]
    exact h
  · rw [heq]
    constructor
    · rw [place_next]
      refine (place_numbers ..).trans (List.Perm.trans ?_ h.once)
      -- the message was the delivery of `i`
      unfold numbers items
      simp only [List.map_append]
      have hmap : (b.unacked.map Prod.snd).Perm (it :: rest.map Prod.snd) := hperm.map Prod.snd
      refine List.Perm.trans List.perm_middle.symm (List.Perm.append_left _ ?_)
      exact ((hmap.map Item.number).symm).append_right _
    · rw [place_unacked]
      have hkeys := (hperm.map Prod.fst).nodup_iff.mp h.keys
      exact (List.nodup_cons.mp hkeys).2

/-- The delivery of a consumer after a verdict on the delivery of another one. -/
theorem mem_unacked_settle [DecidableEq ι] (h : (j, it') ∈ (b.settle i v).unacked) :
    (j, it') ∈ b.unacked := by
  rcases settle_cases i v b with heq | ⟨it, rest, hperm, heq⟩
  · rwa [heq] at h
  · rw [heq, place_unacked] at h
    exact hperm.mem_iff.mpr (List.mem_cons_of_mem _ h)

/-- The message after the verdict. -/
def moved (it : Item μ) : Verdict → Item μ
  | .ack | .discard => it
  | .requeue => { it with
      deliveryCount := it.deliveryCount + 1, redelivered := true, requeues := it.requeues + 1 }
  | .returned counted => { it with
      deliveryCount := it.deliveryCount + counted.toNat, redelivered := true }

/-- Nothing but the settled item is new in any of the four places. -/
theorem mem_place_items {x : Item μ} (h : x ∈ (place it b v).items) :
    x ∈ b.items ∨ x = moved it v := by
  rw [mem_items] at h
  rw [mem_items]
  cases v with
  | ack =>
      rcases h with h | h | h | h
      · exact Or.inl (Or.inl h)
      · exact Or.inl (Or.inr (Or.inl h))
      · exact Or.inl (Or.inr (Or.inr (Or.inl h)))
      · rcases List.mem_append.mp h with h | h
        · exact Or.inl (Or.inr (Or.inr (Or.inr h)))
        · exact Or.inr (List.mem_singleton.mp h)
  | requeue =>
      rcases h with h | h | h | h
      · rcases List.mem_append.mp h with h | h
        · exact Or.inl (Or.inl h)
        · exact Or.inr (List.mem_singleton.mp h)
      · exact Or.inl (Or.inr (Or.inl h))
      · exact Or.inl (Or.inr (Or.inr (Or.inl h)))
      · exact Or.inl (Or.inr (Or.inr (Or.inr h)))
  | discard =>
      rcases h with h | h | h | h
      · exact Or.inl (Or.inl h)
      · exact Or.inl (Or.inr (Or.inl h))
      · rcases List.mem_append.mp h with h | h
        · exact Or.inl (Or.inr (Or.inr (Or.inl h)))
        · exact Or.inr (List.mem_singleton.mp h)
      · exact Or.inl (Or.inr (Or.inr (Or.inr h)))
  | returned counted =>
      rcases h with h | h | h | h
      · rcases List.mem_append.mp h with h | h
        · exact Or.inl (Or.inl h)
        · exact Or.inr (List.mem_singleton.mp h)
      · exact Or.inl (Or.inr (Or.inl h))
      · exact Or.inl (Or.inr (Or.inr (Or.inl h)))
      · exact Or.inl (Or.inr (Or.inr (Or.inr h)))

/-- A verdict moves the delivery of its consumer and nothing else. -/
theorem mem_settle_items [DecidableEq ι] {x : Item μ} (h : x ∈ (b.settle i v).items) :
    x ∈ b.items ∨ ∃ it, (i, it) ∈ b.unacked ∧ x = moved it v := by
  rcases settle_cases i v b with heq | ⟨it, rest, hperm, heq⟩
  · rw [heq] at h
    exact Or.inl h
  · rw [heq] at h
    have hmem : (i, it) ∈ b.unacked := hperm.mem_iff.mpr List.mem_cons_self
    rcases mem_place_items h with h | h
    · left
      rw [mem_items] at h ⊢
      rcases h with h | ⟨j, h⟩ | h
      · exact Or.inl h
      · exact Or.inr (Or.inl ⟨j, hperm.mem_iff.mpr (List.mem_cons_of_mem _ h)⟩)
      · exact Or.inr (Or.inr h)
    · exact Or.inr ⟨it, hmem, h⟩

/-- Items in any of the four places stay in one of them, and the settled item gets into one. -/
theorem mem_place {x : Item μ} (h : x ∈ b.items ∨ x = moved it v) : x ∈ (place it b v).items := by
  rw [mem_items]
  rcases h with h | rfl
  · rw [mem_items] at h
    cases v <;> simp only [place, List.mem_append] <;> tauto
  · cases v <;> simp [place, moved]

/-- A verdict loses no message and changes no text. -/
theorem settle_content [DecidableEq ι] {x : Item μ} (h : x ∈ b.items) :
    ∃ x' ∈ (b.settle i v).items, x'.content = x.content := by
  rcases settle_cases i v b with heq | ⟨it, rest, hperm, heq⟩
  · rw [heq]
    exact ⟨x, h, rfl⟩
  · rw [heq]
    have hmoved : (moved it v).content = it.content := by cases v <;> rfl
    rw [mem_items] at h
    have hcases : x = it ∨ x ∈ items { b with unacked := rest } := by
      rw [mem_items]
      rcases h with h | ⟨j, h⟩ | h
      · exact Or.inr (Or.inl h)
      · rcases List.mem_cons.mp (hperm.mem_iff.mp h) with heq | hin
        · cases heq
          exact Or.inl rfl
        · exact Or.inr (Or.inr (Or.inl ⟨j, hin⟩))
      · exact Or.inr (Or.inr (Or.inr h))
    rcases hcases with rfl | hin
    · exact ⟨moved x v, mem_place (Or.inr rfl), hmoved⟩
    · exact ⟨x, mem_place (Or.inl hin), rfl⟩

/-- A publish drops no item. -/
theorem mem_publish {x : Item μ} (h : x ∈ b.items) : x ∈ (b.publish m).items := by
  rw [mem_items] at h ⊢
  rcases h with h | h
  · exact Or.inl (List.mem_append_left _ h)
  · exact Or.inr h

theorem publish_mem : (⟨b.next, m, 0, false, 0⟩ : Item μ) ∈ (b.publish m).items :=
  mem_items.mpr (Or.inl (List.mem_append_right _ (List.mem_singleton.mpr rfl)))

/-- Only an acknowledged item that was out for delivery joins the acknowledged ones. -/
theorem mem_settle_acked [DecidableEq ι] {x : Item μ} (h : x ∈ (b.settle i v).acked) :
    x ∈ b.acked ∨ v = .ack ∧ (i, x) ∈ b.unacked := by
  rcases settle_cases i v b with heq | ⟨it, rest, hperm, heq⟩
  · rw [heq] at h
    exact Or.inl h
  · rw [heq] at h
    cases v with
    | ack =>
        rcases List.mem_append.mp h with h | h
        · exact Or.inl h
        · rw [List.mem_singleton.mp h]
          exact Or.inr ⟨rfl, hperm.mem_iff.mpr List.mem_cons_self⟩
    | requeue => exact Or.inl h
    | discard => exact Or.inl h
    | returned counted => exact Or.inl h

/-- A delivery changes where an item is, not which items there are. -/
theorem deliver_items {x : Item μ} (h : b.deliver i n = some (b', it)) :
    x ∈ b'.items ↔ x ∈ b.items := by
  rcases deliver_spec h with ⟨-, rest, hperm, rfl⟩
  have hq : x ∈ b.queue ↔ x = it ∨ x ∈ rest := by rw [hperm.mem_iff, List.mem_cons]
  simp only [mem_items, List.mem_append, List.mem_singleton, Prod.mk.injEq, hq]
  constructor
  · rintro (h | ⟨j, h | ⟨-, h⟩⟩ | h)
    · exact Or.inl (Or.inr h)
    · exact Or.inr (Or.inl ⟨j, h⟩)
    · exact Or.inl (Or.inl h)
    · exact Or.inr (Or.inr h)
  · rintro ((h | h) | ⟨j, h⟩ | h)
    · exact Or.inr (Or.inl ⟨i, Or.inr ⟨rfl, h⟩⟩)
    · exact Or.inl h
    · exact Or.inr (Or.inl ⟨j, Or.inl h⟩)
    · exact Or.inr (Or.inr h)

theorem deliver_mem (h : b.deliver i n = some (b', it)) : it ∈ b.items := by
  rcases deliver_spec h with ⟨-, rest, hperm, -⟩
  exact mem_items.mpr (Or.inl (hperm.mem_iff.mpr List.mem_cons_self))

theorem deliver_unacked (h : b.deliver i n = some (b', it)) :
    b'.unacked = b.unacked ++ [(i, it)] := by
  rcases deliver_spec h with ⟨-, rest, -, rfl⟩
  rfl

theorem deliver_acked (h : b.deliver i n = some (b', it)) : b'.acked = b.acked := by
  rcases deliver_spec h with ⟨-, rest, -, rfl⟩
  rfl

end Broker

end Core
