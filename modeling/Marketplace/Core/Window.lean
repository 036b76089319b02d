import Mathlib.Data.List.Pairwise

/-!
# Core.Window — admission by a sliding window

A hit at `t` is admitted when fewer than `limit` of the hits admitted before it fall into
`(t - w, t]`. This is all a limiter has to do; how it finds the hits of the window is its own
business.

* `Bounded.enter`: no window ever holds more than `limit` admitted hits;
* `within_wait`: a full window stays full until its oldest hit leaves it, and is open then.
-/

namespace Core.Window

variable {limit w t t' u : ℕ} {l l' : List ℕ}

/-- The moments of `l` in `(t - w, t]`. -/
def within (w t : ℕ) (l : List ℕ) : List ℕ := l.filter fun u => decide (t < u + w ∧ u ≤ t)

/-- The admitted hits after one more hit, at `t`. -/
def enter (limit w : ℕ) (l : List ℕ) (t : ℕ) : List ℕ :=
  if (within w t l).length < limit then l ++ [t] else l

/-- No window holds more than `limit` hits. -/
def Bounded (limit w : ℕ) (l : List ℕ) : Prop := ∀ t, (within w t l).length ≤ limit

theorem mem_within : u ∈ within w t l ↔ u ∈ l ∧ t < u + w ∧ u ≤ t := by
  simp [within]

theorem within_append : within w t (l ++ l') = within w t l ++ within w t l' := by
  simp [within]

theorem within_self (hw : 0 < w) : within w t [t] = [t] := by
  have h : t < t + w := by omega
  simp [within, h]

/-- A window that ends later holds fewer of the hits up to `t`. -/
theorem within_later (hl : ∀ u ∈ l, u ≤ t) (ht : t ≤ t') :
    within w t' l = (within w t l).filter fun u => decide (t' < u + w) := by
  unfold within
  rw [List.filter_filter]
  apply List.filter_congr
  intro u hu
  have hut := hl u hu
  rw [Bool.eq_iff_iff]
  simp only [decide_eq_true_eq, Bool.and_eq_true]
  omega

theorem length_within_later (hl : ∀ u ∈ l, u ≤ t) (ht : t ≤ t') :
    (within w t' l).length ≤ (within w t l).length := by
  rw [within_later hl ht]
  exact List.length_filter_le _ _

theorem Bounded.nil : Bounded limit w [] := fun _ => Nat.zero_le _

/-- Admission keeps every window within the limit. -/
theorem Bounded.enter (h : Bounded limit w l) (hl : ∀ u ∈ l, u ≤ t) :
    Bounded limit w (enter limit w l t) := by
  unfold Window.enter
  split
  · next hlt =>
      intro t'
      rw [within_append, List.length_append]
      by_cases hin : t' < t + w ∧ t ≤ t'
      · -- the window at `t'` has the new hit, and no more old ones than the window at `t`
        have hone : (within w t' [t]).length ≤ 1 := List.length_filter_le _ _
        have hold := length_within_later (w := w) hl hin.2
        omega
      · have hnone : within w t' [t] = [] := by
          simp only [within, List.filter_eq_nil_iff, List.mem_singleton]
          rintro u rfl
          simpa using hin
        rw [hnone]
        exact h t'
  · exact h

/-- While its oldest hit is in the window, a full window is full; after that it is not. -/
theorem within_wait {rest : List ℕ} (hl : ∀ u ∈ l, u ≤ t) (ht : t ≤ t')
    (hhead : within w t l = u :: rest) (hsorted : ∀ x ∈ rest, u ≤ x)
    (hfull : (within w t l).length = limit) :
    (within w t' l).length < limit ↔ u + w ≤ t' := by
  rw [within_later hl ht]
  constructor
  · intro hlt
    by_contra hin
    have hall : ((within w t l).filter fun x => decide (t' < x + w)) = within w t l := by
      rw [List.filter_eq_self, hhead]
      intro x hx
      rw [decide_eq_true_eq]
      rcases List.mem_cons.mp hx with rfl | hx
      · omega
      · have hux := hsorted x hx
        omega
    rw [hall, hfull] at hlt
    exact Nat.lt_irrefl _ hlt
  · intro hout
    rw [← hfull, hhead, List.filter_cons, if_neg (by rw [decide_eq_true_eq]; omega)]
    exact Nat.lt_succ_of_le (List.length_filter_le _ _)

end Core.Window
