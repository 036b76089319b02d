import Marketplace.Core.Procs
import Mathlib.Data.Set.Finite.Basic
import Mathlib.Data.Fintype.Order
import Mathlib.Order.WellFounded
import Mathlib.Logic.Relation

/-!
# Core.Waits — who waits for whom

A process that wants a resource somebody else holds waits for the holder. If every process
only ever wants what ranks above all it holds, nobody waits in a circle
(`Waits.acyclic`), and of finitely many processes one does not wait
(`Waits.exists_unblocked`).
-/

namespace Core

universe u v w

namespace Waits

variable {ι : Type u} {R : Type v}

/-- Process `i` waits for process `j`: it wants a resource that `j` holds. -/
def For (holds : ι → R → Prop) (wants : ι → Option R) (i j : ι) : Prop :=
  i ≠ j ∧ ∃ r, wants i = some r ∧ holds j r

section Order

variable {holds : ι → R → Prop} {wants : ι → Option R} {α : Type w} [Preorder α] {rank : R → α}

/-- Along a chain of waiting processes the rank of what is wanted does not fall. -/
theorem chain (hord : ∀ i r r', wants i = some r → holds i r' → rank r' < rank r) {i j : ι}
    (h : Relation.TransGen (For holds wants) i j) :
    ∃ r r', wants i = some r ∧ holds j r' ∧ rank r ≤ rank r' := by
  induction h with
  | single hij =>
      obtain ⟨-, r, hw, hh⟩ := hij
      exact ⟨r, r, hw, hh, le_refl _⟩
  | tail _ hjk ih =>
      obtain ⟨r, r', hw, hh, hle⟩ := ih
      obtain ⟨-, r₂, hw₂, hh₂⟩ := hjk
      have hlt := hord _ r₂ r' hw₂ hh
      exact ⟨r, r₂, hw, hh₂, hle.trans hlt.le⟩

/-- If whoever waits wants something above all it holds, the ranks rise along the waiting and no
circle closes. -/
theorem acyclic (hord : ∀ i r r', wants i = some r → holds i r' → rank r' < rank r) (i : ι) :
    ¬ Relation.TransGen (For holds wants) i i := by
  intro h
  obtain ⟨r, r', hw, hh, hle⟩ := chain hord h
  exact absurd (hord i r r' hw hh) (not_lt_of_ge hle)

end Order

section Levels

variable {W V : ι → ι → Prop} {α : Type w} [PartialOrder α] {level : ι → α}

/-- Where waiting raises a level, or stays on it and waits in the sense of `V`, a circle is one of
`V`. -/
theorem acyclic_of_level (hlevel : ∀ i j, W i j → level i < level j ∨ level i = level j ∧ V i j)
    (hV : ∀ i, ¬ Relation.TransGen V i i) (i : ι) : ¬ Relation.TransGen W i i := by
  have hchain : ∀ {a b}, Relation.TransGen W a b →
      level a < level b ∨ level a = level b ∧ Relation.TransGen V a b := by
    intro a b h
    induction h with
    | single hab =>
        rcases hlevel _ _ hab with hlt | ⟨heq, hv⟩
        · exact .inl hlt
        · exact .inr ⟨heq, .single hv⟩
    | tail _ hbc ih =>
        rcases ih with hlt | ⟨heq, hv⟩ <;> rcases hlevel _ _ hbc with hlt' | ⟨heq', hv'⟩
        · exact .inl (hlt.trans hlt')
        · exact .inl (heq' ▸ hlt)
        · exact .inl (heq ▸ hlt')
        · exact .inr ⟨heq.trans heq', hv.tail hv'⟩
  intro h
  rcases hchain h with hlt | ⟨-, hv⟩
  · exact lt_irrefl _ hlt
  · exact hV i hv

end Levels

section Between

variable {W : ι → ι → Prop} {α : Type w} [LinearOrder α] {rank : ι → α}

/-- Whoever ranks between one that waits and the one it waits for waits for that one too. -/
structure Between (W : ι → ι → Prop) (rank : ι → α) : Prop where
  ne : ∀ a b, W a b → rank a ≠ rank b
  inj : ∀ a b c, W a b → W b c → rank a = rank c → a = c
  mid : ∀ a b x, W a b → W x a ∨ W b x →
    rank a < rank x ∧ rank x < rank b ∨ rank b < rank x ∧ rank x < rank a → W x b
  pair : ∀ a b, W a b → ¬ W b a

variable {a b c : ι}

/-- Upwards and then downwards: the first waits for the last one itself. -/
theorem Between.turn (h : Between W rank) (hab : W a b) (hbc : W b c) (hup : rank a < rank b)
    (hdown : rank c < rank b) : W a c ∧ rank c < rank a := by
  rcases lt_trichotomy (rank a) (rank c) with hlt | heq | hlt
  · exact absurd (h.mid a b c hab (.inr hbc) (.inl ⟨hlt, hdown⟩)) (h.pair b c hbc)
  · obtain rfl := h.inj a b c hab hbc heq
    exact absurd hbc (h.pair a b hab)
  · exact ⟨h.mid b c a hbc (.inl hab) (.inr ⟨hlt, hup⟩), hlt⟩

/-- A chain of rising edges followed by a falling one that ends lower than the chain began is a
single edge. -/
theorem Between.collapse (h : Between W rank)
    (hab : Relation.TransGen (fun x y => W x y ∧ rank x < rank y) a b) (hbc : W b c)
    (hdown : rank c < rank b) : W a c ∧ rank c < rank a := by
  induction hab using Relation.TransGen.head_induction_on with
  | single hab => exact h.turn hab.1 hbc hab.2 hdown
  | head hax _ ih => exact h.turn hax.1 ih.1 hax.2 ih.2

/-- The condition reads the same with the ranks turned upside down. -/
theorem Between.dual (h : Between W rank) : Between W fun i => OrderDual.toDual (rank i) where
  ne a b hab heq := h.ne a b hab (OrderDual.toDual_inj.mp heq)
  inj a b c hab hbc heq := h.inj a b c hab hbc (OrderDual.toDual_inj.mp heq)
  mid a b x hab hx hmid := h.mid a b x hab hx (hmid.symm.imp And.symm And.symm)
  pair := h.pair

/-- A chain of waiting processes can be taken to go one way. -/
theorem Between.oneWay (h : Between W rank) (hab : Relation.TransGen W a b) :
    Relation.TransGen (fun x y => W x y ∧ rank x < rank y) a b ∨
      Relation.TransGen (fun x y => W x y ∧ rank y < rank x) a b := by
  induction hab with
  | single hab =>
      rcases lt_or_gt_of_ne (h.ne _ _ hab) with hlt | hgt
      · exact .inl (.single ⟨hab, hlt⟩)
      · exact .inr (.single ⟨hab, hgt⟩)
  | tail _ hbc ih =>
      rcases ih with hup | hdown <;> rcases lt_or_gt_of_ne (h.ne _ _ hbc) with hlt | hgt
      · exact .inl (hup.tail ⟨hbc, hlt⟩)
      · exact .inr (.single (h.collapse hup hbc hgt))
      · exact .inl (.single (h.dual.collapse hdown hbc hlt))
      · exact .inr (hdown.tail ⟨hbc, hgt⟩)

/-- Along a chain of rising edges the rank rises. -/
theorem rank_lt (rank : ι → α) (hab : Relation.TransGen (fun x y => W x y ∧ rank x < rank y) a b) :
    rank a < rank b := by
  induction hab with
  | single hab => exact hab.2
  | tail _ hbc ih => exact ih.trans hbc.2

/-- Then no two that wait for each other means no circle at all. -/
theorem Between.acyclic (h : Between W rank) (i : ι) : ¬ Relation.TransGen W i i := by
  intro hcycle
  rcases h.oneWay hcycle with hup | hdown
  · exact lt_irrefl _ (rank_lt rank hup)
  · exact lt_irrefl _ (rank_lt (fun i => OrderDual.toDual (rank i)) hdown)

end Between

/-- Of finitely many processes that wait for each other only, and not in a circle, one does
not wait. -/
theorem exists_unblocked {W : ι → ι → Prop} (hacyclic : ∀ i, ¬ Relation.TransGen W i i)
    {S : Set ι} (hfin : S.Finite) (hne : S.Nonempty) (hclosed : ∀ i ∈ S, ∀ j, W i j → j ∈ S) :
    ∃ i ∈ S, ∀ j, ¬ W i j := by
  let later : S → S → Prop := fun a b => Relation.TransGen W b a
  have hwf : WellFounded later := by
    have hfinite : Finite S := hfin
    have htrans : IsTrans S later := ⟨fun _ _ _ hab hbc => hbc.trans hab⟩
    have hirrefl : Std.Irrefl later := ⟨fun a => hacyclic a⟩
    exact Finite.wellFounded_of_trans_of_irrefl later
  obtain ⟨i₀, hi₀⟩ := hne
  obtain ⟨i, -, hmin⟩ := hwf.has_min Set.univ ⟨⟨i₀, hi₀⟩, trivial⟩
  refine ⟨i, i.2, ?_⟩
  intro j hw
  exact hmin ⟨j, hclosed i i.2 j hw⟩ trivial (Relation.TransGen.single hw)

end Waits

namespace Procs

variable {ι : Type u} {δ : Type v} {π : Type w} {α ε : Type*} [DecidableEq ι]
  {P : Procs ι δ π α ε} {s t : World ι δ π}

/-- In a run that starts with nobody under way, finitely many calls have begun. -/
theorem Run.finite_begun {ok : World ι δ π → Act ι α ε → Prop} {as : List (Act ι α ε)}
    (hr : P.machine.Run ok s as t) (h : ∀ i, s.proc i = P.idle) :
    {i | t.proc i ≠ P.idle}.Finite := by
  induction hr with
  | refl =>
      refine Set.Finite.subset Set.finite_empty ?_
      intro i hi
      exact hi (h i)
  | @step as t u act _ _ hn ih =>
      cases act with
      | call i a =>
          obtain ⟨d, p, -, rfl⟩ := next_call hn
          refine (ih.insert i).subset ?_
          intro j hj
          by_cases hji : j = i
          · exact Or.inl hji
          · right
            change Function.update t.proc i p j ≠ P.idle at hj
            rwa [Function.update_of_ne hji] at hj
      | env e =>
          obtain ⟨d, -, rfl⟩ := next_env hn
          exact ih

end Procs

end Core
