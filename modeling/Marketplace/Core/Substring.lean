import Mathlib.Data.List.Infix
import Mathlib.Data.Nat.Notation

/-!
# Core.Substring — finding a text in a text, and cutting at it

`s.indexOf(pat)` and `s.split(sep)` for a separator that is not empty. A place that was found
stays the first one when more text comes (`indexOf_append`), and a text is cut at the first place
and then from there on (`cut_of_some`).
-/

namespace Core.Substring

universe u

variable {α : Type u} [DecidableEq α]

/-- `s.indexOf(pat)`; `none` for −1. -/
def indexOf (pat : List α) : List α → Option ℕ
  | [] => if pat = [] then some 0 else none
  | c :: s => if pat <+: c :: s then some 0 else (indexOf pat s).map (· + 1)

/-- The parts behind the next `skip` places. -/
def cutFrom (sep : List α) : ℕ → List α → List (List α)
  | _, [] => [[]]
  | skip + 1, _ :: s => cutFrom sep skip s
  | 0, c :: s =>
      if sep <+: c :: s then [] :: cutFrom sep (sep.length - 1) s
      else match cutFrom sep 0 s with
        | [] => [[c]]
        | part :: parts => (c :: part) :: parts

/-- `s.split(sep)`. -/
def cut (sep s : List α) : List (List α) := cutFrom sep 0 s

example : cut [0, 0] [1, 0, 0, 0, 2, 0, 0] = [[1], [0, 2], []] := by decide

variable {pat sep s t l : List α} {c : α} {i : ℕ}

/-! ## indexOf -/

theorem indexOf_cons : indexOf pat (c :: s) =
    if pat <+: c :: s then some 0 else (indexOf pat s).map (· + 1) := rfl

/-- A pattern at the very start is found there. -/
theorem indexOf_start (h : pat <+: s) : indexOf pat s = some 0 := by
  cases s with
  | nil => exact if_pos (List.prefix_nil.mp h)
  | cons c s => exact if_pos h

/-- The pattern does stand where `indexOf` says it does. -/
theorem prefix_of_indexOf (h : indexOf pat s = some i) : pat <+: s.drop i := by
  induction s generalizing i with
  | nil =>
      rw [indexOf] at h
      split at h
      · next hnil =>
          rw [hnil]
          exact List.nil_prefix
      · cases h
  | cons c s ih =>
      rw [indexOf_cons] at h
      split at h
      · next hpre =>
          obtain rfl := Option.some.inj h
          exact hpre
      · obtain ⟨j, hj, rfl⟩ := Option.map_eq_some_iff.mp h
        exact ih hj

/-- The place, what is before it and what comes after. -/
theorem eq_of_indexOf (h : indexOf pat s = some i) :
    s = s.take i ++ pat ++ s.drop (i + pat.length) ∧ i + pat.length ≤ s.length := by
  obtain ⟨rest, hrest⟩ := prefix_of_indexOf h
  have hdrop : s.drop (i + pat.length) = rest := by
    rw [← List.drop_drop, ← hrest, List.drop_left]
  refine ⟨by rw [hdrop, List.append_assoc, hrest, List.take_append_drop], ?_⟩
  have hle : i ≤ s.length := by
    by_contra hlt
    rw [List.drop_of_length_le (by omega)] at hrest
    have hnil : pat = [] := (List.append_eq_nil_iff.mp hrest).1
    rw [hnil, indexOf_start List.nil_prefix] at h
    obtain rfl := Option.some.inj h
    omega
  have hlen := congrArg List.length hrest
  rw [List.length_append, List.length_drop] at hlen
  omega

/-- What was found is found at the same place when more comes. -/
theorem indexOf_append (h : indexOf pat s = some i) (t : List α) :
    indexOf pat (s ++ t) = some i := by
  induction s generalizing i with
  | nil =>
      rw [indexOf] at h
      split at h
      · next hnil =>
          obtain rfl := Option.some.inj h
          rw [hnil]
          exact indexOf_start List.nil_prefix
      · cases h
  | cons c s ih =>
      rw [indexOf_cons] at h
      split at h
      · next hpre =>
          obtain rfl := Option.some.inj h
          exact indexOf_start (hpre.trans (List.prefix_append _ _))
      · next hpre =>
          obtain ⟨j, hj, rfl⟩ := Option.map_eq_some_iff.mp h
          -- it fits into what was there, so it is not earlier now
          have hfit : pat.length ≤ (c :: s).length := by
            have hle := (eq_of_indexOf hj).2
            rw [List.length_cons]
            omega
          have hnot : ¬ pat <+: c :: (s ++ t) := by
            intro hlong
            exact hpre (List.prefix_of_prefix_length_le hlong (List.prefix_append (c :: s) t) hfit)
          rw [List.cons_append, indexOf_cons, if_neg hnot, ih hj, Option.map_some]

/-- A pattern that stands somewhere is found somewhere. -/
theorem indexOf_ne_none (hi : i ≤ s.length) (h : pat <+: s.drop i) : indexOf pat s ≠ none := by
  induction s generalizing i with
  | nil =>
      rw [List.drop_nil] at h
      rw [indexOf_start h]
      exact nofun
  | cons c s ih =>
      cases i with
      | zero =>
          rw [List.drop_zero] at h
          rw [indexOf_start h]
          exact nofun
      | succ i =>
          rw [indexOf_cons]
          split
          · exact nofun
          · have hrest := ih (Nat.le_of_succ_le_succ hi) h
            rwa [Ne, Option.map_eq_none_iff]

/-- It is found in a beginning that holds it. -/
theorem indexOf_take {m : ℕ} (h : indexOf pat s = some i) (hm : i + pat.length ≤ m) :
    indexOf pat (s.take m) = some i := by
  obtain ⟨heq, hle⟩ := eq_of_indexOf h
  cases hfound : indexOf pat (s.take m) with
  | none =>
      refine absurd hfound (indexOf_ne_none (i := i) (by rw [List.length_take]; omega) ?_)
      obtain ⟨rest, hrest⟩ := prefix_of_indexOf h
      rw [List.drop_take, ← hrest]
      exact List.prefix_take_iff.mpr ⟨List.prefix_append _ _, by omega⟩
  | some j =>
      have hlater := indexOf_append hfound (s.drop m)
      rw [List.take_append_drop, h] at hlater
      rw [Option.some.inj hlater]

/-- It is not found where its first character does not stand. -/
theorem indexOf_skip (pat : List α) (h : c ∉ l) (t : List α) :
    indexOf (c :: pat) (l ++ t) = (indexOf (c :: pat) t).map (· + l.length) := by
  induction l with
  | nil => simp
  | cons d l ih =>
      have hnot : ¬ c :: pat <+: d :: (l ++ t) := by
        intro hpre
        exact h ((List.cons_prefix_cons.mp hpre).1 ▸ List.mem_cons_self)
      rw [List.cons_append, indexOf_cons, if_neg hnot, ih fun hl => h (List.mem_cons_of_mem d hl),
        Option.map_map]
      congr 1

/-- A pattern whose first symbol does not occur is not found. -/
theorem indexOf_of_notMem {pat : List α} (h : c ∉ s) : indexOf (c :: pat) s = none := by
  have hskip := indexOf_skip pat h []
  rw [List.append_nil] at hskip
  rw [hskip]
  rfl

/-- The end of a block of lines that are not empty: two line breaks in a row stand nowhere
before. -/
theorem indexOf_block {a b : α} (hab : b ≠ a) {lines : List (List α)} (hne : lines ≠ [])
    (h : ∀ line ∈ lines, line ≠ [] ∧ a ∉ line) (t : List α) :
    indexOf [a, b, a, b] ([a, b].intercalate lines ++ [a, b, a, b] ++ t) =
      some ([a, b].intercalate lines).length := by
  induction lines with
  | nil => exact absurd rfl hne
  | cons line lines ih =>
      obtain ⟨-, hline⟩ := h line List.mem_cons_self
      cases lines with
      | nil =>
          have hpre : [a, b, a, b] <+: [a, b, a, b] ++ t := List.prefix_append _ _
          rw [List.intercalate_singleton, List.append_assoc, indexOf_skip _ hline,
            indexOf_start hpre]
          simp
      | cons next lines =>
          have hrest := ih (by simp) fun l hl => h l (List.mem_cons_of_mem line hl)
          -- the next line is not empty and does not start with `a`, so the separator in front of
          -- it is not yet the blank line
          obtain ⟨hnext, hnotin⟩ := h next (by simp)
          obtain ⟨c, next', rfl⟩ := List.exists_cons_of_ne_nil hnext
          have hc : c ≠ a := fun heq => hnotin (heq ▸ List.mem_cons_self)
          obtain ⟨rest, hcons⟩ : ∃ rest, [a, b].intercalate ((c :: next') :: lines) = c :: rest := by
            cases lines with
            | nil => exact ⟨next', List.intercalate_singleton⟩
            | cons last lines => exact ⟨_, by rw [List.intercalate_cons_cons]; rfl⟩
          rw [hcons] at hrest
          have hnot : ¬ [a, b, a, b] <+: a :: b :: c :: (rest ++ [a, b, a, b] ++ t) := by
            intro hpre
            simp only [List.cons_prefix_cons] at hpre
            exact hc hpre.2.2.1.symm
          have hb : a ∉ [b] := by simpa using Ne.symm hab
          have htail := indexOf_skip [b, a, b] hb (c :: (rest ++ [a, b, a, b] ++ t))
          rw [List.singleton_append] at htail
          have hshift : ([a, b].intercalate (line :: (c :: next') :: lines) ++ [a, b, a, b] ++ t) =
              line ++ a :: b :: c :: (rest ++ [a, b, a, b] ++ t) := by
            rw [List.intercalate_cons_cons, hcons]
            simp
          rw [hshift, indexOf_skip _ hline, indexOf_cons, if_neg hnot, htail,
            show c :: (rest ++ [a, b, a, b] ++ t) = c :: rest ++ [a, b, a, b] ++ t from rfl, hrest,
            List.intercalate_cons_cons, hcons]
          simp only [Option.map_some, Option.some.injEq, List.length_append, List.length_cons,
            List.length_nil]
          omega

/-! ## cut -/

theorem cutFrom_cons (sep : List α) (skip : ℕ) (c : α) (s : List α) :
    cutFrom sep (skip + 1) (c :: s) = cutFrom sep skip s := rfl

theorem cut_cons (sep : List α) (c : α) (s : List α) : cut sep (c :: s) =
    if sep <+: c :: s then [] :: cutFrom sep (sep.length - 1) s
    else match cut sep s with
      | [] => [[c]]
      | part :: parts => (c :: part) :: parts := rfl

/-- Cutting after a number of symbols is cutting what is left behind them. -/
theorem cutFrom_eq (sep : List α) (skip : ℕ) (s : List α) :
    cutFrom sep skip s = cut sep (s.drop skip) := by
  induction skip generalizing s with
  | zero => rfl
  | succ skip ih =>
      cases s with
      | nil => rfl
      | cons c s => rw [cutFrom_cons, ih, List.drop_succ_cons]

/-- A text without the separator is one part. -/
theorem cut_of_none (h : indexOf sep s = none) : cut sep s = [s] := by
  induction s with
  | nil => rfl
  | cons c s ih =>
      rw [indexOf_cons] at h
      split at h
      · cases h
      · next hpre => rw [cut_cons, if_neg hpre, ih (Option.map_eq_none_iff.mp h)]

/-- A cut takes what stands in front of the first separator and goes on behind it. -/
theorem cut_of_some (hsep : sep ≠ []) (h : indexOf sep s = some i) :
    cut sep s = s.take i :: cut sep (s.drop (i + sep.length)) := by
  induction s generalizing i with
  | nil =>
      rw [indexOf, if_neg hsep] at h
      cases h
  | cons c s ih =>
      rw [indexOf_cons] at h
      split at h
      · next hpre =>
          obtain rfl := Option.some.inj h
          obtain ⟨n, hn⟩ : ∃ n, sep.length = n + 1 :=
            ⟨sep.length - 1, by have := List.length_pos_iff.mpr hsep; omega⟩
          rw [cut_cons, if_pos hpre, cutFrom_eq, hn, Nat.add_sub_cancel, Nat.zero_add,
            List.drop_succ_cons, List.take_zero]
      · next hpre =>
          obtain ⟨j, hj, rfl⟩ := Option.map_eq_some_iff.mp h
          rw [cut_cons, if_neg hpre, ih hj, List.take_succ_cons, Nat.add_right_comm,
            List.drop_succ_cons]

/-- A cut has at least one part. -/
theorem cut_ne_nil (sep s : List α) : cut sep s ≠ [] := by
  cases s with
  | nil => simp [cut, cutFrom]
  | cons c s =>
      rw [cut_cons]
      split
      · simp
      · split <;> simp

/-- A part without the separator's first character, and the rest. -/
theorem cut_append {sep : List α} (h : c ∉ l) (t : List α) :
    cut (c :: sep) (l ++ (c :: sep) ++ t) = l :: cut (c :: sep) t := by
  have hindex : indexOf (c :: sep) (l ++ (c :: sep) ++ t) = some l.length := by
    rw [List.append_assoc, indexOf_skip _ h, indexOf_start (List.prefix_append _ _)]
    simp
  rw [cut_of_some (by simp) hindex]
  have htake : (l ++ (c :: sep) ++ t).take l.length = l := by simp
  have hdrop : (l ++ (c :: sep) ++ t).drop (l.length + (c :: sep).length) = t := by
    rw [← List.length_append, List.drop_left]
  rw [htake, hdrop]

theorem cut_of_notMem {sep : List α} (h : c ∉ l) : cut (c :: sep) l = [l] :=
  cut_of_none (indexOf_of_notMem h)

/-- Parts without the separator's first character are what a joined text is cut into. -/
theorem cut_intercalate {sep : List α} {parts : List (List α)} (hne : parts ≠ [])
    (h : ∀ part ∈ parts, c ∉ part) : cut (c :: sep) ((c :: sep).intercalate parts) = parts := by
  induction parts with
  | nil => exact absurd rfl hne
  | cons part parts ih =>
      have hpart := h part List.mem_cons_self
      cases parts with
      | nil => simpa using cut_of_notMem hpart
      | cons next parts =>
          rw [List.intercalate_cons_cons, cut_append hpart,
            ih (by simp) fun p hp => h p (List.mem_cons_of_mem part hp)]

/-- The parts joined again. -/
theorem intercalate_cut (hsep : sep ≠ []) (s : List α) : sep.intercalate (cut sep s) = s := by
  induction hlen : s.length using Nat.strong_induction_on generalizing s with
  | h n ih =>
      cases h : indexOf sep s with
      | none => simp [cut_of_none h]
      | some i =>
          obtain ⟨heq, hle⟩ := eq_of_indexOf h
          have hpos := List.length_pos_iff.mpr hsep
          have hrest := ih (s.drop (i + sep.length)).length
            (by rw [List.length_drop]; omega) (s.drop (i + sep.length)) rfl
          obtain ⟨next, parts, hparts⟩ :=
            List.exists_cons_of_ne_nil (cut_ne_nil sep (s.drop (i + sep.length)))
          rw [cut_of_some hsep h, hparts, List.intercalate_cons_cons, ← hparts, hrest, ← heq]

end Core.Substring
