import Marketplace.Core.JsNumber
import Marketplace.Files.Parts

/-!
# Files.Plan — every plan is legal and covers the file

`planParts` computes on doubles. Its three quotients stay below 2⁵³, so `Math.ceil` of them is
what it is for whole numbers and the plan is the one of `Files.Policy`
(`OnDoubles.planParts_eq`).

The plan then meets the limits of S3 at once, its lengths are those the uploader of
`src/demos/keyless-parts.ts` computes from offsets, and the parts put together are the file.
-/

namespace Marketplace.Files

open Core

/-! ## The arithmetic of the code -/

namespace OnDoubles

variable (dbl : Binary64)

/-- `Math.ceil(a / b)`. -/
def ceilDiv (a b : ℕ) : ℕ := ceil (dbl.round (a / b))

/-- `planParts`. Its products are whole numbers below 2⁵³, which doubles have. -/
def planParts (size : ℕ) : Except String PartPlan :=
  if maxObjectBytes < size then .error "object too large for S3"
  else
    let byCount := ceilDiv dbl (ceilDiv dbl size maxParts) miB * miB
    let partSize := max minPartBytes byCount
    if maxPartBytes < partSize then .error "part size above the S3 maximum"
    else .ok ⟨partSize, ceilDiv dbl size partSize⟩

/-- An operation on a number that may be `Infinity`, for one that leaves `Infinity` alone. -/
def andThen (f : ℚ → ℚ) : WithTop ℚ → WithTop ℚ
  | none => ⊤
  | some q => dbl.round (f q)

/-- `multipartThreshold`, for any budget and any speed. -/
def multipartThreshold (budgetSec bytesPerSec : ℚ) : WithTop ℚ :=
  let quotient := andThen dbl (· / miB) (dbl.round (budgetSec * bytesPerSec))
  let bySpeed := andThen dbl (⌈·⌉ * miB) quotient
  max bySpeed ((minPartBytes + miB : ℕ) : ℚ)

end OnDoubles

/-! ## The uploader -/

/-- Where the uploader starts to read a part. -/
def uploaderOffset (plan : PartPlan) (partNumber : ℕ) : ℕ := (partNumber - 1) * plan.partSize

def uploaderLength (plan : PartPlan) (size partNumber : ℕ) : ℕ :=
  min plan.partSize (size - uploaderOffset plan partNumber)

/-- The bytes it sends. -/
def uploaderPart (plan : PartPlan) (file : Bytes) (partNumber : ℕ) : Bytes :=
  (file.drop (uploaderOffset plan partNumber)).take (uploaderLength plan file.length partNumber)

/-! ## Plans that S3 takes -/

/-- The plan is legal for S3 and covers a file of this size exactly. -/
structure LegalPlan (plan : PartPlan) (size : ℕ) : Prop where
  count_le : plan.partCount ≤ maxParts
  whole : miB ∣ plan.partSize
  min_le : minPartBytes ≤ plan.partSize
  le_max : plan.partSize ≤ maxPartBytes
  full : ∀ n, 1 ≤ n → n < plan.partCount → partLength plan size n = plan.partSize
  last_pos : 1 ≤ partLength plan size plan.partCount
  last_le : partLength plan size plan.partCount ≤ plan.partSize
  sum : ((List.range' 1 plan.partCount).map (partLength plan size)).sum = size
  uploads : ∀ n, 1 ≤ n → n ≤ plan.partCount →
    uploaderLength plan size n = partLength plan size n
  joins : ∀ file : Bytes, file.length = size →
    ((List.range' 1 plan.partCount).map (uploaderPart plan file)).flatten = file

/-! ## Doubles and whole numbers -/

namespace OnDoubles

variable {dbl : Binary64} {size : ℕ}

theorem ceilDiv_eq {a b : ℕ} (ha : a < 2 ^ 53) (hb : 0 < b) (hb' : b < 2 ^ 53) :
    ceilDiv dbl a b = Files.ceilDiv a b :=
  dbl.ceil_div ha hb hb'

/-- On doubles the plan is the exact one, for every size up to the largest object. -/
theorem planParts_eq (hsize : size ≤ maxObjectBytes) :
    planParts dbl size = Files.planParts size := by
  have hbound : maxObjectBytes < 2 ^ 53 := by decide
  have hsmall : size < 2 ^ 53 := by omega
  have hcount : ceilDiv dbl size maxParts = Files.ceilDiv size maxParts :=
    ceilDiv_eq hsmall (by decide) (by decide)
  have hle : Files.ceilDiv size maxParts ≤ size := by
    rw [ceilDiv_le_iff (by decide)]
    exact Nat.le_mul_of_pos_left size (by decide)
  have hmib : ceilDiv dbl (Files.ceilDiv size maxParts) miB =
      Files.ceilDiv (Files.ceilDiv size maxParts) miB :=
    ceilDiv_eq (by omega) (by decide) (by decide)
  unfold planParts Files.planParts
  rw [hcount, hmib]
  split
  · rfl
  · dsimp only
    split
    · rfl
    · next hpart =>
        have hpos : 0 < minPartBytes := by decide
        have hmax : maxPartBytes < 2 ^ 53 := by decide
        rw [ceilDiv_eq hsmall (by omega) (by omega)]

/-- The threshold leaves room for two parts, whatever the budget and the speed. -/
theorem two_parts_le_threshold (budgetSec bytesPerSec : ℚ) :
    ((minPartBytes + miB : ℕ) : ℚ) ≤ multipartThreshold dbl budgetSec bytesPerSec :=
  le_max_right _ _

end OnDoubles

/-! ## The plan -/

variable {size : ℕ} {plan : PartPlan}

/-- The part size of a plan: whole megabytes within the limits, and the last part is never the
only one above two minimum parts. -/
theorem partSize_bounds (h : planParts size = .ok plan) :
    miB ∣ plan.partSize ∧ minPartBytes ≤ plan.partSize ∧ plan.partSize ≤ maxPartBytes ∧
      (minPartBytes + miB < size → plan.partSize < size) := by
  unfold planParts at h
  split at h
  · cases h
  · next hsize =>
      dsimp only at h
      split at h
      · cases h
      · next hpart =>
          cases h
          refine ⟨?_, Nat.le_max_left _ _, Nat.le_of_not_lt hpart, ?_⟩
          · rcases Nat.le_total minPartBytes (ceilDiv (ceilDiv size maxParts) miB * miB) with
              hle | hle
            · rw [Nat.max_eq_right hle]
              exact Nat.dvd_mul_left _ _
            · rw [Nat.max_eq_left hle]
              exact Nat.dvd_mul_left _ _
          · intro hbig
            simp only [minPartBytes, maxParts, ceilDiv, miB] at hbig ⊢
            omega

/-- What the uploader takes from its offset is the length that was signed. -/
theorem uploaderLength_eq (hc : Covers plan size) {n : ℕ} (hn : 1 ≤ n)
    (hle : n ≤ plan.partCount) : uploaderLength plan size n = partLength plan size n := by
  have hbelow := hc.below
  have habove := hc.above
  unfold uploaderLength uploaderOffset partLength
  obtain ⟨m, rfl⟩ : ∃ m, n = m + 1 := Nat.exists_eq_add_one_of_ne_zero (by omega)
  obtain ⟨c, hcount⟩ : ∃ c, plan.partCount = c + 1 :=
    Nat.exists_eq_add_one_of_ne_zero (Nat.ne_of_gt hc.count_pos)
  rw [hcount] at hbelow habove hle ⊢
  rw [Nat.add_sub_cancel] at hbelow
  rw [Nat.add_sub_cancel, Nat.add_sub_cancel, Nat.mul_comm m]
  rw [Nat.mul_succ] at habove
  split
  · next hlt =>
      -- a whole part is left after part `m + 1`
      have hroom : plan.partSize * (m + 1) ≤ plan.partSize * c := Nat.mul_le_mul_left _ (by omega)
      rw [Nat.mul_succ] at hroom
      omega
  · next hlast =>
      obtain rfl : m = c := by omega
      omega

/-- Consecutive pieces of one length, put together. -/
theorem flatten_pieces {α : Type} (l : List α) (len n : ℕ) :
    ((List.range n).map fun k => (l.drop (k * len)).take len).flatten = l.take (n * len) := by
  induction n with
  | zero => simp
  | succ n ih =>
      rw [List.range_succ, List.map_append, List.flatten_append, ih, Nat.succ_mul, List.take_add]
      simp

/-- The parts of the uploader, put together, are the file. -/
theorem uploaderPart_flatten {file : Bytes} (hc : Covers plan file.length) :
    ((List.range' 1 plan.partCount).map (uploaderPart plan file)).flatten = file := by
  have hpiece : ∀ k, uploaderPart plan file (1 + k) =
      (file.drop (k * plan.partSize)).take plan.partSize := by
    intro k
    unfold uploaderPart uploaderLength uploaderOffset
    rw [Nat.add_sub_cancel_left, List.take_eq_take_iff, List.length_drop]
    omega
  rw [List.range'_eq_map_range, List.map_map]
  have hmap : (uploaderPart plan file ∘ fun k => 1 + k) =
      fun k => (file.drop (k * plan.partSize)).take plan.partSize := funext hpiece
  rw [hmap, flatten_pieces, Nat.mul_comm, List.take_of_length_le hc.above]

/-- Every size up to the maximum gets a legal plan, and two parts above any threshold. -/
theorem plan_exact (dbl : Binary64) (size : ℕ) (hpos : 1 ≤ size) (hmax : size ≤ maxObjectBytes) :
    ∃ plan, OnDoubles.planParts dbl size = .ok plan ∧ LegalPlan plan size ∧
      ∀ budgetSec bytesPerSec : ℚ,
        OnDoubles.multipartThreshold dbl budgetSec bytesPerSec < ((size : ℕ) : ℚ) →
        2 ≤ plan.partCount := by
  obtain ⟨plan, hplan⟩ := planParts_ok hmax
  have hc : Covers plan size := plan_bounds hplan hpos
  obtain ⟨hwhole, hmin, hmaxPart, htwo⟩ := partSize_bounds hplan
  have hbelow := hc.below
  have habove := hc.above
  have hlast : partLength plan size plan.partCount =
      size - plan.partSize * (plan.partCount - 1) := by
    unfold partLength
    rw [if_neg (Nat.lt_irrefl _)]
  have hroom : plan.partSize * plan.partCount =
      plan.partSize * (plan.partCount - 1) + plan.partSize := by
    rw [← Nat.mul_succ, Nat.succ_eq_add_one, Nat.sub_add_cancel hc.count_pos]
  refine ⟨plan, (OnDoubles.planParts_eq hmax).trans hplan, ?_, ?_⟩
  · constructor
    · exact hc.count_le
    · exact hwhole
    · exact hmin
    · exact hmaxPart
    · intro n _ hn
      unfold partLength
      rw [if_pos hn]
    · omega
    · omega
    · exact partLength_sum hc
    · intro n hn hle
      exact uploaderLength_eq hc hn hle
    · rintro file rfl
      exact uploaderPart_flatten hc
  · intro budgetSec bytesPerSec hlt
    have hsix : minPartBytes + miB < size := by
      have hle := lt_of_le_of_lt (OnDoubles.two_parts_le_threshold budgetSec bytesPerSec) hlt
      exact_mod_cast WithTop.coe_lt_coe.mp hle
    have hsmall := htwo hsix
    by_contra hone
    -- one part would hold the whole file, and that is below the threshold
    have hcount : plan.partCount = 1 := by
      have hpos := hc.count_pos
      omega
    rw [hcount, Nat.mul_one] at habove
    omega

/-- 50000 MiB are ten thousand parts of 5 MiB. -/
theorem plan_exact_full : ∃ plan,
    OnDoubles.planParts .unrounded (50000 * miB) = .ok plan ∧ LegalPlan plan (50000 * miB) := by
  obtain ⟨plan, hplan, hlegal, -⟩ :=
    plan_exact .unrounded (50000 * miB) (by decide) (by decide)
  exact ⟨plan, hplan, hlegal⟩

end Marketplace.Files
