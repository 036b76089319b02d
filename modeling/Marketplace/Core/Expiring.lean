import Mathlib.Logic.Function.Basic
import Mathlib.Data.List.Basic

/-!
# Core.Expiring — a store whose entries expire

Keys with a value and a deadline, as a server keeps them: an entry is there up to its
deadline, and a read after that finds nothing. `setNew` is the write that a live entry
refuses, `delIf` the delete that looks at the value first; together they make a lock with a
lifetime.

The lemmas say what a later `get` finds. Time only takes entries away (`get_later`), and a
write at one key is not seen at another.
-/

namespace Core

universe u v

structure Expiring.Item (V : Type v) where
  value : V
  expiresAt : ℕ

/-- The entries by key, expired ones included. -/
abbrev Expiring (K : Type u) (V : Type v) := K → Option (Expiring.Item V)

namespace Expiring

variable {K : Type u} {V : Type v} [DecidableEq K]

def get (now : ℕ) (k : K) (S : Expiring K V) : Option V :=
  ((S k).filter fun e => decide (now ≤ e.expiresAt)).map Item.value

def set (k : K) (v : V) (expiresAt : ℕ) (S : Expiring K V) : Expiring K V :=
  Function.update S k (some ⟨v, expiresAt⟩)

def del (k : K) (S : Expiring K V) : Expiring K V := Function.update S k none

/-- Set the key if there is nothing under it. -/
def setNew (now : ℕ) (k : K) (v : V) (expiresAt : ℕ) (S : Expiring K V) :
    Option (Expiring K V) :=
  if (S.get now k).isNone then some (S.set k v expiresAt) else none

/-- Delete the key if its value passes `p`. -/
def delIf (now : ℕ) (k : K) (p : V → Bool) (S : Expiring K V) : Expiring K V :=
  if (S.get now k).any p then S.del k else S

variable {now now' expiresAt : ℕ} {k k' : K} {v v' : V} {p : V → Bool} {S S' : Expiring K V}

omit [DecidableEq K] in
/-- A value is read as long as its key is there and has not expired; the moment of expiry still
counts. -/
theorem get_eq_some :
    S.get now k = some v ↔ ∃ e, S k = some e ∧ now ≤ e.expiresAt ∧ e.value = v := by
  unfold get
  rw [Option.map_eq_some_iff]
  constructor
  · rintro ⟨e, he, hv⟩
    rw [Option.filter_eq_some_iff] at he
    exact ⟨e, he.1, by simpa using he.2, hv⟩
  · rintro ⟨e, he, hle, hv⟩
    exact ⟨e, by rw [Option.filter_eq_some_iff]; exact ⟨he, by simpa using hle⟩, hv⟩

omit [DecidableEq K] in
theorem get_of_live {e : Item V} (he : S k = some e) (hle : now ≤ e.expiresAt) :
    S.get now k = some e.value :=
  get_eq_some.mpr ⟨e, he, hle, rfl⟩

omit [DecidableEq K] in
/-- What is there later is there now. -/
theorem get_later (hle : now ≤ now') (hget : S.get now' k = some v) : S.get now k = some v := by
  obtain ⟨e, he, hlive, hv⟩ := get_eq_some.mp hget
  exact get_eq_some.mpr ⟨e, he, Nat.le_trans hle hlive, hv⟩

@[simp] theorem set_self : S.set k v expiresAt k = some ⟨v, expiresAt⟩ :=
  Function.update_self ..

theorem set_ne (h : k' ≠ k) : S.set k v expiresAt k' = S k' := Function.update_of_ne h ..

@[simp] theorem del_self : S.del k k = none := Function.update_self ..

theorem del_ne (h : k' ≠ k) : S.del k k' = S k' := Function.update_of_ne h ..

omit [DecidableEq K] in
theorem get_congr (h : S' k = S k) : S'.get now k = S.get now k := by
  unfold get
  rw [h]

@[simp] theorem get_del_self : (S.del k).get now k = none := by
  simp [get]

/-- SET NX succeeds on a key that cannot be read, expired ones included, and then it is a plain
SET. -/
theorem setNew_eq_some (h : S.setNew now k v expiresAt = some S') :
    S.get now k = none ∧ S' = S.set k v expiresAt := by
  unfold setNew at h
  split at h
  · next hnone =>
      cases h
      exact ⟨Option.isNone_iff_eq_none.mp hnone, rfl⟩
  · cases h

/-- A conditional delete removes the key or nothing. -/
theorem delIf_cases : (S.delIf now k p = S) ∨
    (∃ v, S.get now k = some v ∧ p v = true) ∧ S.delIf now k p = S.del k := by
  unfold delIf
  split
  · next hany =>
      rw [Option.any_eq_true] at hany
      exact Or.inr ⟨hany, rfl⟩
  · exact Or.inl rfl

/-- A conditional delete of a value that can be read and meets the condition is a plain DEL. -/
theorem delIf_of_get (hget : S.get now k = some v) (hp : p v = true) :
    S.delIf now k p = S.del k := by
  unfold delIf
  rw [hget]
  exact if_pos hp

end Expiring

end Core
