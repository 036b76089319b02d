import Mathlib.Data.List.Nodup
import Mathlib.Data.List.Perm.Basic

/-!
# Core.Batches — deleting the rows that qualify, a few at a time

`Keyed key` is a table whose rows have different keys. A batch deletes rows that are eligible,
as many as there are but at most `batch` of them, whichever.

* `delete_swept`: the rows that are not eligible do not notice;
* `delete_left`, `delete_short`: a full batch leaves fewer eligible rows, a short one leaves
  none;
* `exists_choice`: there always is a next batch.
-/

namespace Core.Batches

universe u v

/-- Rows with different keys. -/
@[ext]
structure Keyed {α : Type u} {κ : Type v} (key : α → κ) where
  rows : List α
  unique : (rows.map key).Nodup

variable {α : Type u} {κ : Type v} {key : α → κ}

namespace Keyed

def filter (T : Keyed key) (p : α → Bool) : Keyed key where
  rows := T.rows.filter p
  unique := T.unique.sublist (List.filter_sublist.map key)

def insert (T : Keyed key) (r : α) (h : key r ∉ T.rows.map key) : Keyed key where
  rows := T.rows ++ [r]
  unique := by
    rw [List.map_append, List.map_singleton]
    refine List.nodup_append.mpr ⟨T.unique, List.nodup_singleton _, ?_⟩
    intro k hk k' hk' heq
    obtain rfl := List.mem_singleton.mp hk'
    exact h (heq ▸ hk)

/-- An update that leaves every key as it is. -/
def modify (T : Keyed key) (f : α → α) (h : ∀ r, key (f r) = key r) : Keyed key where
  rows := T.rows.map f
  unique := by
    have hkeys : (T.rows.map f).map key = T.rows.map key := by
      rw [List.map_map]
      exact List.map_congr_left fun r _ => h r
    exact hkeys ▸ T.unique

end Keyed

section

variable [DecidableEq κ] (eligible : α → Bool)

/-- The rows with one of the keys, and what is left without them. -/
def picked (T : Keyed key) (keys : List κ) : List α := T.rows.filter fun r => decide (key r ∈ keys)

def delete (T : Keyed key) (keys : List κ) : Keyed key := T.filter fun r => decide (key r ∉ keys)

omit [DecidableEq κ] in
/-- One DELETE of all eligible rows. -/
def swept (T : Keyed key) : Keyed key := T.filter fun r => !eligible r

omit [DecidableEq κ] in
/-- How many rows are still eligible. -/
def left (T : Keyed key) : ℕ := (T.rows.filter eligible).length

/-- The keys a subselect with LIMIT may give. -/
structure Choice (batch : ℕ) (T : Keyed key) (keys : List κ) : Prop where
  rows : ∀ r ∈ T.rows, key r ∈ keys → eligible r = true
  size : (picked T keys).length = min batch (left eligible T)

instance (eligible : α → Bool) (batch : ℕ) (T : Keyed key) (keys : List κ) :
    Decidable (Choice eligible batch T keys) :=
  decidable_of_iff
    ((∀ r ∈ T.rows, key r ∈ keys → eligible r = true) ∧
      (picked T keys).length = min batch (left eligible T))
    ⟨fun h => ⟨h.1, h.2⟩, fun h => ⟨h.rows, h.size⟩⟩

end

/-! ## Rules -/

section

variable [DecidableEq κ] {eligible : α → Bool} {batch : ℕ} {T : Keyed key} {keys : List κ}

/-- Deleting a batch that was picked among the eligible rows does not show in what the whole sweep
leaves. -/
theorem delete_swept (h : Choice eligible batch T keys) :
    swept eligible (delete T keys) = swept eligible T := by
  apply Keyed.ext
  show (T.rows.filter _).filter _ = T.rows.filter _
  rw [List.filter_filter]
  refine List.filter_congr ?_
  intro r hr
  by_cases hk : key r ∈ keys
  · simp [h.rows r hr hk]
  · simp [hk]

/-- The eligible rows are those of the batch and those that are left. -/
theorem picked_perm (h : Choice eligible batch T keys) :
    (picked T keys ++ (delete T keys).rows.filter eligible).Perm (T.rows.filter eligible) := by
  have hpicked : picked T keys =
      (T.rows.filter eligible).filter fun r => decide (key r ∈ keys) := by
    rw [picked, List.filter_filter]
    refine List.filter_congr ?_
    intro r hr
    by_cases hk : key r ∈ keys
    · simp [hk, h.rows r hr hk]
    · simp [hk]
  have hleft : (delete T keys).rows.filter eligible =
      (T.rows.filter eligible).filter fun r => !decide (key r ∈ keys) := by
    show (T.rows.filter _).filter eligible = _
    rw [List.filter_filter, List.filter_filter]
    refine List.filter_congr ?_
    intro r _
    rw [Bool.and_comm]
    simp
  rw [hpicked, hleft]
  exact List.filter_append_perm _ _

theorem delete_left (h : Choice eligible batch T keys) :
    (picked T keys).length + left eligible (delete T keys) = left eligible T := by
  have hlen := (picked_perm h).length_eq
  rwa [List.length_append] at hlen

/-- A batch that is not full is the last one. -/
theorem delete_short (h : Choice eligible batch T keys) (hn : (picked T keys).length < batch) :
    left eligible (delete T keys) = 0 := by
  have hsize := h.size
  have hleft := delete_left h
  omega

omit [DecidableEq κ] in
/-- Once nothing is left to sweep, no row is eligible. -/
theorem not_eligible_of_left (h : left eligible T = 0) : ∀ r ∈ T.rows, eligible r = false := by
  intro r hr
  have hnil : T.rows.filter eligible = [] := List.eq_nil_of_length_eq_zero h
  simpa using List.filter_eq_nil_iff.mp hnil r hr

omit [DecidableEq κ] in
/-- Once nothing is left to sweep, the sweep has done its whole work. -/
theorem swept_of_left (h : left eligible T = 0) : swept eligible T = T := by
  apply Keyed.ext
  refine List.filter_eq_self.mpr ?_
  intro r hr
  simp [not_eligible_of_left h r hr]

/-- The first eligible rows are a choice. -/
theorem exists_choice (eligible : α → Bool) (batch : ℕ) (T : Keyed key) :
    ∃ keys, Choice eligible batch T keys := by
  refine ⟨((T.rows.filter eligible).take batch).map key, ?_, ?_⟩
  · intro r hr hk
    obtain ⟨r', hr', hkey⟩ := List.mem_map.mp hk
    obtain ⟨hmem, heligible⟩ := List.mem_filter.mp (List.mem_of_mem_take hr')
    obtain rfl := List.inj_on_of_nodup_map T.unique hmem hr hkey
    exact heligible
  · have hsub : ((T.rows.filter eligible).take batch).Sublist T.rows :=
      (List.take_sublist _ _).trans List.filter_sublist
    have hperm : (picked T (((T.rows.filter eligible).take batch).map key)).Perm
        ((T.rows.filter eligible).take batch) := by
      refine (List.perm_ext_iff_of_nodup ?_ ?_).mpr ?_
      · exact (List.Nodup.of_map key T.unique).filter _
      · exact (List.Nodup.of_map key T.unique).sublist hsub
      · intro r
        simp only [picked, List.mem_filter, decide_eq_true_eq]
        constructor
        · rintro ⟨hr, hk⟩
          obtain ⟨r', hr', hkey⟩ := List.mem_map.mp hk
          obtain rfl := List.inj_on_of_nodup_map T.unique (hsub.subset hr') hr hkey
          exact hr'
        · intro hr
          exact ⟨hsub.subset hr, List.mem_map_of_mem hr⟩
    rw [hperm.length_eq, List.length_take, left]

end

/-! ## Changes that others make -/

section

variable {eligible : α → Bool} {T : Keyed key} {r : α} {f : α → α}

/-- A row inserted meanwhile that is not eligible stays, and the order of sweep and insert does
not matter. -/
theorem swept_insert (h : key r ∉ T.rows.map key) (hr : eligible r = false) :
    ∃ h', swept eligible (T.insert r h) = (swept eligible T).insert r h' := by
  have hnot : key r ∉ (swept eligible T).rows.map key :=
    fun hk => h (List.map_subset key (List.filter_subset_self _) hk)
  refine ⟨hnot, ?_⟩
  apply Keyed.ext
  show (T.rows ++ [r]).filter _ = T.rows.filter _ ++ [r]
  rw [List.filter_append, List.filter_singleton]
  simp [hr]

/-- An insert of a row that is not eligible leaves the work of the sweep as it was. -/
theorem eligible_insert (h : key r ∉ T.rows.map key) (hr : eligible r = false) :
    (T.insert r h).rows.filter eligible = T.rows.filter eligible := by
  show (T.rows ++ [r]).filter _ = _
  rw [List.filter_append, List.filter_singleton]
  simp [hr]

/-- `f` changes no eligible row and makes none. -/
theorem swept_modify (h : ∀ r, key (f r) = key r)
    (hf : ∀ r ∈ T.rows, eligible (f r) = eligible r) :
    swept eligible (T.modify f h) = (swept eligible T).modify f h := by
  apply Keyed.ext
  show (T.rows.map f).filter _ = (T.rows.filter _).map f
  rw [List.filter_map]
  refine congrArg (List.map f) (List.filter_congr ?_)
  intro r hr
  simp [hf r hr]

/-- A change that spares the eligible rows, and makes none eligible, leaves the work of the sweep
as it was. -/
theorem eligible_modify (h : ∀ r, key (f r) = key r)
    (hf : ∀ r ∈ T.rows, eligible (f r) = eligible r)
    (hsame : ∀ r ∈ T.rows, eligible r = true → f r = r) :
    (T.modify f h).rows.filter eligible = T.rows.filter eligible := by
  show (T.rows.map f).filter _ = _
  rw [List.filter_map]
  have hcongr : T.rows.filter (eligible ∘ f) = T.rows.filter eligible :=
    List.filter_congr fun r hr => hf r hr
  rw [hcongr]
  have hmap : (T.rows.filter eligible).map f = (T.rows.filter eligible).map id :=
    List.map_congr_left fun r hr => hsame r (List.mem_filter.mp hr).1 (List.mem_filter.mp hr).2
  rw [hmap, List.map_id]

end

end Core.Batches
