import Mathlib.Data.List.Forall2
import Mathlib.Data.List.Basic

/-!
# Core.UniqueReading — texts that can be read in one way only

`Reads` says of a part that its text, followed by something that may stand behind a part,
determines the part (up to a relation `S`) and what follows it. Parts that can be read so can be
read in a list with separators (`Reads.group`).
-/

namespace Core.UniqueReading

universe u v

variable {σ : Type u} {α : Type v}

/-- What may follow a part: nothing, or a symbol that no part goes on with. -/
def Ends (stop : σ → Prop) (rest : List σ) : Prop := ∀ c ∈ rest.head?, stop c

/-- The text `f x` is not the beginning of any other part's text. -/
def Reads (stop : σ → Prop) (f : α → List σ) (P : α → Prop) (S : α → α → Prop) (x : α) : Prop :=
  ∀ y rest rest', P y → Ends stop rest → Ends stop rest' → f x ++ rest = f y ++ rest' →
    S x y ∧ rest = rest'

/-- Parts with a separator between two, and something behind the last. -/
def group (sep : σ) (f : α → List σ) : List α → List σ → List σ
  | [], rest => rest
  | [x], rest => f x ++ rest
  | x :: y :: xs, rest => f x ++ sep :: group sep f (y :: xs) rest

/-- A group is its parts with the separator in between, and then the rest. -/
theorem group_eq_intercalate (sep : σ) (f : α → List σ) (xs : List α) (rest : List σ) :
    group sep f xs rest = [sep].intercalate (xs.map f) ++ rest := by
  induction xs with
  | nil => rfl
  | cons x xs ih =>
      cases xs with
      | nil => simp [group]
      | cons y xs =>
          rw [group, ih]
          simp [List.intercalate_cons_cons]

variable {stop : σ → Prop} {f : α → List σ} {P : α → Prop} {S : α → α → Prop} {sep close : σ}

/-- A text that starts, and not with a closing symbol. -/
def Starts (close : σ) (f : α → List σ) (x : α) : Prop := ∃ c s, f x = c :: s ∧ c ≠ close

/-- A nonempty group does not begin with its closing symbol, because its first part does not. -/
theorem starts_group (sep : σ) {x : α} (xs : List α) (rest : List σ) (h : Starts close f x) :
    ∃ c s, group sep f (x :: xs) rest = c :: s ∧ c ≠ close := by
  obtain ⟨c, s, hf, hne⟩ := h
  cases xs with
  | nil => exact ⟨c, s ++ rest, by rw [group, hf]; rfl, hne⟩
  | cons y xs => exact ⟨c, s ++ sep :: group sep f (y :: xs) rest, by rw [group, hf]; rfl, hne⟩

/-- Induction over both lists at once. -/
theorem Reads.group (sep close : σ) (hsep : stop sep) (hclose : stop close) (hne : sep ≠ close) :
    ∀ {xs ys : List α} {rest rest' : List σ}, (∀ x ∈ xs, Reads stop f P S x) →
      (∀ x ∈ xs, Starts close f x) → (∀ y ∈ ys, P y ∧ Starts close f y) →
      group sep f xs (close :: rest) = group sep f ys (close :: rest') →
      List.Forall₂ S xs ys ∧ rest = rest' := by
  intro xs
  induction xs with
  | nil =>
      intro ys rest rest' _ _ hys heq
      cases ys with
      | nil => exact ⟨.nil, (List.cons.inj heq).2⟩
      | cons y ys =>
          obtain ⟨c, s, hgroup, hc⟩ := starts_group sep ys (close :: rest')
            (hys y List.mem_cons_self).2
          rw [hgroup] at heq
          exact absurd (List.cons.inj heq).1.symm hc
  | cons x xs ih =>
      intro ys rest rest' hxs hstarts hys heq
      cases ys with
      | nil =>
          obtain ⟨c, s, hgroup, hc⟩ := starts_group sep xs (close :: rest)
            (hstarts x List.mem_cons_self)
          rw [hgroup] at heq
          exact absurd (List.cons.inj heq).1 hc
      | cons y ys =>
          have hread := hxs x List.mem_cons_self
          have hy := (hys y List.mem_cons_self).1
          have hxs' : ∀ z ∈ xs, Reads stop f P S z := fun z hz => hxs z (List.mem_cons_of_mem x hz)
          have hstarts' : ∀ z ∈ xs, Starts close f z :=
            fun z hz => hstarts z (List.mem_cons_of_mem x hz)
          have hys' : ∀ z ∈ ys, P z ∧ Starts close f z :=
            fun z hz => hys z (List.mem_cons_of_mem y hz)
          -- behind the first parts stands the closing symbol or a separator, and the lists cannot
          -- differ there
          have hends : ∀ (c : σ) (s : List σ), stop c → Ends stop (c :: s) := by
            intro c s hc d hd
            obtain rfl : c = d := by simpa using hd
            exact hc
          cases xs with
          | nil =>
              cases ys with
              | nil =>
                  obtain ⟨hS, htail⟩ :=
                    hread y _ _ hy (hends _ _ hclose) (hends _ _ hclose) heq
                  exact ⟨.cons hS .nil, (List.cons.inj htail).2⟩
              | cons z zs =>
                  obtain ⟨-, htail⟩ := hread y _ _ hy (hends _ _ hclose) (hends _ _ hsep) heq
                  exact absurd (List.cons.inj htail).1.symm hne
          | cons z zs =>
              cases ys with
              | nil =>
                  obtain ⟨-, htail⟩ := hread y _ _ hy (hends _ _ hsep) (hends _ _ hclose) heq
                  exact absurd (List.cons.inj htail).1 hne
              | cons w ws =>
                  obtain ⟨hS, htail⟩ := hread y _ _ hy (hends _ _ hsep) (hends _ _ hsep) heq
                  obtain ⟨hall, hrest⟩ := ih hxs' hstarts' hys' (List.cons.inj htail).2
                  exact ⟨.cons hS hall, hrest⟩

end Core.UniqueReading
