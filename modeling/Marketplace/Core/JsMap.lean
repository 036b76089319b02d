import Mathlib.Data.List.Basic
import Mathlib.Data.List.Nodup

/-!
# Core.JsMap — a `Map` in insertion order

`set` on a key that is there keeps its place, on a new key appends it, and `delete`
closes the gap. No two entries have one key: the structure carries that.
-/

namespace Core

universe u v

structure JsMap (κ : Type u) (ν : Type v) where
  entries : List (κ × ν)
  nodup : (entries.map Prod.fst).Nodup

namespace JsMap

variable {κ : Type u} {ν : Type v}

def empty : JsMap κ ν := ⟨[], List.nodup_nil⟩

def keys (m : JsMap κ ν) : List κ := m.entries.map Prod.fst

/-- `m.keys().next().value`. -/
def firstKey (m : JsMap κ ν) : Option κ := m.keys.head?

variable [DecidableEq κ]

def get (m : JsMap κ ν) (k : κ) : Option ν := (m.entries.find? fun p => p.1 = k).map Prod.snd

def delete (m : JsMap κ ν) (k : κ) : JsMap κ ν where
  entries := m.entries.filter fun p => p.1 ≠ k
  nodup := m.nodup.sublist (List.filter_sublist.map _)

/-- Overwriting the value of a key that is there leaves the list of keys as it was: a Map keeps
the place of the first insertion. -/
theorem set_keys (l : List (κ × ν)) (k : κ) (v : ν) :
    (l.map fun p => if p.1 = k then (k, v) else p).map Prod.fst = l.map Prod.fst := by
  rw [List.map_map]
  apply List.map_congr_left
  intro p _
  by_cases h : p.1 = k
  · simp [h]
  · simp [h]

def set (m : JsMap κ ν) (k : κ) (v : ν) : JsMap κ ν where
  entries :=
    if k ∈ m.keys then m.entries.map fun p => if p.1 = k then (k, v) else p
    else m.entries ++ [(k, v)]
  nodup := by
    split
    · rw [set_keys]
      exact m.nodup
    · next hk =>
        rw [List.map_append, List.nodup_append]
        refine ⟨m.nodup, List.nodup_singleton k, ?_⟩
        intro a ha b hb hab
        have hbk : b = k := by simpa using hb
        exact hk (hbk ▸ hab ▸ ha)

/-! ## Rules -/

omit [DecidableEq κ] in
@[simp] theorem empty_entries : (empty : JsMap κ ν).entries = [] := rfl

variable {m : JsMap κ ν} {k k' : κ} {v w : ν}

/-- `get` finds exactly the pairs that are in the map; no key is there twice. -/
theorem get_eq_some_iff : m.get k = some v ↔ (k, v) ∈ m.entries := by
  constructor
  · intro h
    simp only [get, Option.map_eq_some_iff] at h
    obtain ⟨p, hp, rfl⟩ := h
    have hk : p.1 = k := by simpa using List.find?_some hp
    exact hk ▸ List.mem_of_find?_eq_some hp
  · intro h
    have hinj := List.inj_on_of_nodup_map m.nodup
    cases hf : m.entries.find? fun p => p.1 = k with
    | none =>
        rw [List.find?_eq_none] at hf
        exact absurd (decide_eq_true rfl) (hf _ h)
    | some p =>
        have hk : p.1 = k := by simpa using List.find?_some hf
        have heq : p = (k, v) := hinj (List.mem_of_find?_eq_some hf) h hk
        simp [get, hf, heq]

/-- `get` fails exactly on the keys that are not there. -/
theorem get_eq_none_iff : m.get k = none ↔ k ∉ m.keys := by
  constructor
  · intro h hk
    obtain ⟨⟨a, b⟩, hp, rfl⟩ := List.mem_map.mp hk
    rw [get_eq_some_iff.mpr hp] at h
    cases h
  · intro hk
    cases hg : m.get k with
    | none => rfl
    | some v => exact absurd (List.mem_map_of_mem (f := Prod.fst) (get_eq_some_iff.mp hg)) hk

theorem delete_entries : (m.delete k).entries = m.entries.filter fun p => p.1 ≠ k := rfl

/-- Removing a key that is not there removes nothing. -/
theorem filter_of_notMem {l : List (κ × ν)} (h : k ∉ l.map Prod.fst) :
    l.filter (fun p => p.1 ≠ k) = l := by
  rw [List.filter_eq_self]
  intro p hp
  have hne : p.1 ≠ k := by
    rintro rfl
    exact h (List.mem_map_of_mem hp)
  simpa using hne

theorem delete_of_notMem (h : k ∉ m.keys) : (m.delete k).entries = m.entries :=
  filter_of_notMem h

/-- A deleted key is gone. -/
theorem notMem_keys_delete : k ∉ (m.delete k).keys := by
  intro h
  obtain ⟨p, hp, hpk⟩ := List.mem_map.mp h
  rw [delete_entries, List.mem_filter] at hp
  simp [hpk] at hp

theorem set_entries (h : k ∉ m.keys) : (m.set k v).entries = m.entries ++ [(k, v)] := if_neg h

@[simp] theorem get_delete_self : (m.delete k).get k = none :=
  get_eq_none_iff.mpr notMem_keys_delete

/-- Deleting a key is invisible to every other key. -/
theorem get_delete_of_ne (h : k' ≠ k) : (m.delete k).get k' = m.get k' := by
  apply Option.ext
  intro v
  rw [get_eq_some_iff, get_eq_some_iff, delete_entries, List.mem_filter]
  simp [h]

/-- After `set` the map holds the new pair and the old pairs of the other keys. -/
theorem mem_set_entries {p : κ × ν} :
    p ∈ (m.set k v).entries ↔ p = (k, v) ∨ p ∈ m.entries ∧ p.1 ≠ k := by
  unfold set
  dsimp only
  split
  · next hk =>
      rw [List.mem_map]
      constructor
      · rintro ⟨q, hq, rfl⟩
        by_cases hqk : q.1 = k
        · exact Or.inl (if_pos hqk)
        · rw [if_neg hqk]
          exact Or.inr ⟨hq, hqk⟩
      · rintro (rfl | ⟨hp, hpk⟩)
        · obtain ⟨q, hq, hqk⟩ := List.mem_map.mp hk
          exact ⟨q, hq, if_pos hqk⟩
        · exact ⟨p, hp, if_neg hpk⟩
  · next hk =>
      rw [List.mem_append, List.mem_singleton]
      constructor
      · rintro (hp | hp)
        · refine Or.inr ⟨hp, ?_⟩
          rintro rfl
          exact hk (List.mem_map_of_mem hp)
        · exact Or.inl hp
      · rintro (hp | hp)
        · exact Or.inr hp
        · exact Or.inl hp.1

@[simp] theorem get_set_self : (m.set k v).get k = some v :=
  get_eq_some_iff.mpr (mem_set_entries.mpr (Or.inl rfl))

/-- Setting a key is invisible to every other key. -/
theorem get_set_of_ne (h : k' ≠ k) : (m.set k v).get k' = m.get k' := by
  apply Option.ext
  intro w
  rw [get_eq_some_iff, get_eq_some_iff, mem_set_entries]
  simp [h]

end JsMap

end Core
