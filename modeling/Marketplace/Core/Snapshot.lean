import Marketplace.Core.Rows

/-!
# Core.Snapshot — row versions under REPEATABLE READ

Tables with row locks in which every row also counts the commits that wrote it. A
transaction takes a `Snapshot` at its first statement and reads from it; the first
one to update a row wins:

* an UPDATE of a row somebody else has committed since the snapshot is a `conflict`;
* an UPDATE of a row somebody else has locked `waits`, and is a conflict if that
  transaction commits;
* `Snapshot.Valid` is what a transaction may rely on: the rows it has updated are
  in what is committed still as its snapshot shows them (`Valid.current`).
-/

namespace Core

universe u v w

/-- A table, and for each row how often a commit has written it. -/
structure Versioned (ι : Type u) (K : Type v) (V : Type w) where
  rows : Table ι K V
  version : K → ℕ

/-- What a transaction sees from its first statement on. -/
structure Snapshot (K : Type v) (V : Type w) where
  row : K → Option V
  version : K → ℕ

/-- How an UPDATE ends. -/
inductive Updated (σ : Type u) where
  | waits
  | conflict
  | done (s : σ)

namespace Versioned

variable {ι : Type u} {K : Type v} {V : Type w} [DecidableEq ι] [DecidableEq K]

def snapshot (d : Versioned ι K V) : Snapshot K V := ⟨fun k => (d.rows k).base, d.version⟩

/-- What `i` sees of a row: its own version, or the one of its snapshot. -/
def view (i : ι) (σ : Snapshot K V) (d : Versioned ι K V) (k : K) : Option V :=
  if (d.rows k).Held i then (d.rows k).view i else σ.row k

/-- UPDATE of the row `k` by `i`, if `i` sees such a row. -/
def update (i : ι) (σ : Snapshot K V) (k : K) (f : V → V) (d : Versioned ι K V) :
    Updated (Versioned ι K V) :=
  match d.view i σ k with
  | none => .done d
  | some v =>
      if (d.rows k).Held i ∨ σ.version k = d.version k then
        if (d.rows k).Free i then .done { d with rows := d.rows.put i k (some (f v)) }
        else .waits
      else .conflict

/-- Every row `i` holds has a new version. -/
def commit (i : ι) (d : Versioned ι K V) : Versioned ι K V :=
  ⟨d.rows.commit i, fun k => if (d.rows k).Held i then d.version k + 1 else d.version k⟩

def rollback (i : ι) (d : Versioned ι K V) : Versioned ι K V := { d with rows := d.rows.rollback i }

variable {i j : ι} {k : K} {f : V → V} {σ : Snapshot K V} {d d' : Versioned ι K V}

section

omit [DecidableEq K]

@[simp] theorem commit_rows : (d.commit i).rows = d.rows.commit i := rfl

theorem commit_version_held (h : (d.rows k).Held i) : (d.commit i).version k = d.version k + 1 :=
  if_pos h

theorem commit_version_other (h : ¬ (d.rows k).Held i) : (d.commit i).version k = d.version k :=
  if_neg h

end

/-- An UPDATE that is done changes no committed row, and nothing the others hold. -/
theorem update_own (h : d.update i σ k f = .done d') :
    Table.Own i d.rows d'.rows ∧ d'.version = d.version := by
  unfold update at h
  split at h
  · cases h
    exact ⟨Table.Own.refl i _, rfl⟩
  · split at h
    · split at h
      · next hfree =>
          cases h
          exact ⟨Table.Own.put hfree, rfl⟩
      · cases h
    · cases h

/-- A conflict: somebody has committed the row since the snapshot. -/
theorem update_conflict (h : d.update i σ k f = .conflict) : σ.version k ≠ d.version k := by
  unfold update at h
  split at h
  · cases h
  · split at h
    · split at h <;> cases h
    · next hne =>
        intro heq
        exact hne (Or.inr heq)

/-- An UPDATE waits only for a lock. -/
theorem update_waits (h : d.update i σ k f = .waits) : ¬ (d.rows k).Free i := by
  unfold update at h
  split at h
  · cases h
  · split at h
    · split at h
      · cases h
      · next hlocked => exact hlocked
    · cases h

/-- A row `i` holds after its UPDATE is one it held, or one not written since its snapshot. -/
theorem update_held {k' : K} (h : d.update i σ k f = .done d') (hheld : (d'.rows k').Held i) :
    (d.rows k').Held i ∨ σ.version k' = d.version k' := by
  unfold update at h
  split at h
  · cases h
    exact Or.inl hheld
  · split at h
    · next hcond =>
        split at h
        · cases h
          rw [Table.held_put_iff] at hheld
          split at hheld
          · next heq => exact heq ▸ hcond
          · exact Or.inl hheld
        · cases h
    · cases h

/-- The first UPDATE of a row: it locks the row, and writes over what the snapshot shows. -/
theorem update_first (h : d.update i σ k f = .done d') (hfirst : ¬ (d.rows k).Held i) :
    (σ.row k = none ∧ d' = d) ∨
      ∃ v, σ.row k = some v ∧ σ.version k = d.version k ∧
        d' = { d with rows := d.rows.put i k (some (f v)) } := by
  simp only [update, view, if_neg hfirst] at h
  split at h
  · next hrow =>
      cases h
      exact Or.inl ⟨hrow, rfl⟩
  · next v hrow =>
      split at h
      · next hcond =>
          split at h
          · cases h
            exact Or.inr ⟨v, hrow, hcond.resolve_left hfirst, rfl⟩
          · cases h
      · cases h

end Versioned

/-- What transaction `i` may rely on after it took its snapshot. -/
structure Snapshot.Valid {ι : Type u} {K : Type v} {V : Type w} (i : ι) (σ : Snapshot K V)
    (d : Versioned ι K V) : Prop where
  old : ∀ k, σ.version k ≤ d.version k
  same : ∀ k, σ.version k = d.version k → σ.row k = (d.rows k).base
  held : ∀ k, (d.rows k).Held i → σ.version k = d.version k

namespace Snapshot.Valid

variable {ι : Type u} {K : Type v} {V : Type w} [DecidableEq ι] [DecidableEq K]
  {i j : ι} {k : K} {f : V → V} {σ τ : Snapshot K V} {d d' : Versioned ι K V}

section

omit [DecidableEq ι] [DecidableEq K]

theorem snapshot (i : ι) (d : Versioned ι K V) : Valid i d.snapshot d where
  old _ := Nat.le_refl _
  same _ _ := rfl
  held _ _ := rfl

/-- No lost update: what a transaction has updated is, until it ends, committed as its
snapshot shows it. -/
theorem current (h : Valid i σ d) (hheld : (d.rows k).Held i) : (d.rows k).base = σ.row k :=
  (h.same k (h.held k hheld)).symm

end

omit [DecidableEq K] in
/-- Nobody else's statement and ROLLBACK matters: they commit nothing, and leave alone
what `i` holds. -/
theorem of_own (h : Valid i σ d) (hown : Table.Own j d.rows d'.rows) (hne : j ≠ i)
    (hversion : d'.version = d.version) : Valid i σ d' where
  old k := by
    rw [hversion]
    exact h.old k
  same k hk := by
    rw [hversion] at hk
    rw [h.same k hk, hown.base k]
  held k hk := by
    rw [hversion]
    exact h.held k (((hown.kept i hne.symm).held_iff).mp hk)

theorem update_other (h : Valid i σ d) (hne : j ≠ i) (hd : d.update j τ k f = .done d') :
    Valid i σ d' := by
  obtain ⟨hown, hversion⟩ := Versioned.update_own hd
  exact h.of_own hown hne hversion

section

omit [DecidableEq K]

theorem rollback_other (h : Valid i σ d) (hne : j ≠ i) : Valid i σ (d.rollback j) :=
  h.of_own (Table.Own.rollback j d.rows) hne rfl

/-- Another transaction's COMMIT keeps a snapshot valid: the row it writes is new, and the version
the snapshot saw is remembered as old. -/
theorem commit_other (h : Valid i σ d) (hne : j ≠ i) : Valid i σ (d.commit j) where
  old k := by
    have hold := h.old k
    simp only [Versioned.commit]
    split <;> omega
  same k hk := by
    have hold := h.old k
    by_cases hj : (d.rows k).Held j
    · -- a row that somebody else commits is newer than the snapshot
      rw [Versioned.commit_version_held hj] at hk
      omega
    · rw [Versioned.commit_version_other hj] at hk
      rw [h.same k hk, Versioned.commit_rows, Table.commit_apply, Slot.commit_of_not_held hj]
  held k hk := by
    rw [Versioned.commit_rows, (Table.Kept.commit hne).held_iff] at hk
    have hj : ¬ (d.rows k).Held j := by
      intro hj
      exact hne (hj.unique hk)
    rw [Versioned.commit_version_other hj]
    exact h.held k hk

end

/-- An UPDATE of its own: the row had not changed since the snapshot. -/
theorem update_self (h : Valid i σ d) (hd : d.update i σ k f = .done d') : Valid i σ d' := by
  obtain ⟨hown, hversion⟩ := Versioned.update_own hd
  constructor
  · intro k'
    rw [hversion]
    exact h.old k'
  · intro k' hk'
    rw [hversion] at hk'
    rw [h.same k' hk', hown.base k']
  · intro k' hk'
    rw [hversion]
    rcases Versioned.update_held hd hk' with hheld | hsame
    · exact h.held k' hheld
    · exact hsame

end Snapshot.Valid

end Core
