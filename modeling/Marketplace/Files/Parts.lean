import Marketplace.Core.Pages
import Marketplace.Files.Storage
import Mathlib.Algebra.Order.Floor.Div

/-!
# Files.Parts — the part plan and the listing of parts

* `plan_bounds`, `partLength_sum`: a plan has at most 10000 parts, each part but the last
  is full, and the lengths of the parts sum to the size;
* `listPartsPaged` is the loop of `listParts` over the pages of ListParts, and
  `listPartsPaged_eq` says that it reads what one long page would;
* `Fits`: every part there is a part of the plan, of the planned length.
-/

namespace Marketplace.Files

open Core

/-! ## The plan -/

theorem ceilDiv_le_iff {a b c : ℕ} (hb : 0 < b) : ceilDiv a b ≤ c ↔ a ≤ b * c :=
  ceilDiv_le_iff_le_mul hb

theorem le_mul_ceilDiv {a b : ℕ} (hb : 0 < b) : a ≤ b * ceilDiv a b :=
  (ceilDiv_le_iff hb).mp (Nat.le_refl _)

/-- Every size up to the maximum has a plan. -/
theorem planParts_ok {size : ℕ} (h : size ≤ maxObjectBytes) :
    ∃ plan, planParts size = .ok plan := by
  have hpart : ¬ maxPartBytes < max minPartBytes (ceilDiv (ceilDiv size maxParts) miB * miB) := by
    simp only [maxObjectBytes, maxPartBytes, minPartBytes, maxParts, ceilDiv, giB, miB] at h ⊢
    omega
  unfold planParts
  rw [if_neg (Nat.not_lt.mpr h)]
  exact ⟨_, if_neg hpart⟩

/-- What a plan for a nonempty file says: the last part is not empty, the others are full,
and there are not too many. -/
structure Covers (plan : PartPlan) (size : ℕ) : Prop where
  count_pos : 0 < plan.partCount
  count_le : plan.partCount ≤ maxParts
  below : plan.partSize * (plan.partCount - 1) < size
  above : size ≤ plan.partSize * plan.partCount

/-- A plan covers the size: its parts but the last are full, and the last is not empty. -/
theorem plan_bounds {size : ℕ} {plan : PartPlan} (h : planParts size = .ok plan)
    (hsize : 0 < size) : Covers plan size := by
  unfold planParts at h
  split at h
  · cases h
  · dsimp only at h
    split at h
    · cases h
    · cases h
      -- the part size, in megabytes above a ten thousandth of the size
      have hmb : 0 < miB := by decide
      have hmax : 0 < maxParts := by decide
      have hmin : 0 < minPartBytes := by decide
      generalize hp : max minPartBytes (ceilDiv (ceilDiv size maxParts) miB * miB) = partSize
      have hpos : 0 < partSize := hp ▸ Nat.lt_of_lt_of_le hmin (Nat.le_max_left _ _)
      have hbig : ceilDiv size maxParts ≤ partSize := by
        have hround := le_mul_ceilDiv (a := ceilDiv size maxParts) hmb
        rw [Nat.mul_comm] at hround
        exact hp ▸ Nat.le_trans hround (Nat.le_max_right _ _)
      have hcover : size ≤ partSize * maxParts := by
        rw [Nat.mul_comm]
        exact (ceilDiv_le_iff hmax).mp hbig
      have hcount : 0 < ceilDiv size partSize := by
        rw [Nat.pos_iff_ne_zero]
        intro hzero
        have hle := le_mul_ceilDiv (a := size) hpos
        rw [hzero, Nat.mul_zero] at hle
        omega
      refine ⟨hcount, (ceilDiv_le_iff hpos).mpr hcover, ?_, le_mul_ceilDiv hpos⟩
      -- one part fewer does not do
      by_contra hn
      have hfewer := (ceilDiv_le_iff hpos).mpr (Nat.le_of_not_lt hn)
      change ceilDiv size partSize ≤ ceilDiv size partSize - 1 at hfewer
      omega

theorem sum_const_range (n c a : ℕ) :
    ((List.range' a n).map fun _ => c).sum = c * n := by
  rw [List.map_const', List.sum_replicate_nat, List.length_range', Nat.mul_comm]

/-- The parts together are as long as the file. -/
theorem partLength_sum {plan : PartPlan} {size : ℕ} (h : Covers plan size) :
    ((List.range' 1 plan.partCount).map (partLength plan size)).sum = size := by
  obtain ⟨n, hn⟩ : ∃ n, plan.partCount = n + 1 :=
    Nat.exists_eq_add_one_of_ne_zero (Nat.ne_of_gt h.count_pos)
  have hbelow := h.below
  have hfull : (List.range' 1 n).map (partLength plan size) =
      (List.range' 1 n).map fun _ => plan.partSize := by
    refine List.map_congr_left ?_
    intro k hk
    have hk' := (List.mem_range'_1.mp hk).2
    unfold partLength
    rw [if_pos (by omega)]
  have hlast : partLength plan size (1 + n) = size - plan.partSize * n := by
    unfold partLength
    rw [if_neg (by omega), hn, Nat.add_sub_cancel]
  rw [hn, List.range'_1_concat, List.map_append, List.sum_append, hfull, sum_const_range,
    List.map_singleton, List.sum_singleton, hlast]
  rw [hn, Nat.add_sub_cancel] at hbelow
  omega

/-! ## The listing -/

/-- What ListParts has to list. -/
def Upload.listed (h : Hashes) (up : Upload) : List UploadedPart :=
  (List.range' 1 maxParts).filterMap fun n =>
    (up.parts n).map fun body => ⟨n, h.single body, body.length⟩

/-- `listParts`: ListParts until a page is not truncated, then sorted by part number; the
storage chooses the page sizes. -/
def Bucket.listPartsPaged (h : Hashes) (b : Bucket) (pageSize : ℕ → ℕ) (key : ObjectKey)
    (uploadId : UploadId) : Option (List UploadedPart) :=
  (b.openUpload key uploadId).bind fun up =>
    (Pages.collect UploadedPart.partNumber (up.listed h) pageSize (maxParts + 1) 0 []).map
      (List.mergeSort · fun p q => decide (p.partNumber ≤ q.partNumber))

variable {h : Hashes} {up : Upload}

/-- The listed parts are those that are there, numbered from 1, with size and hash of their bytes.
-/
theorem mem_listed {p : UploadedPart} : p ∈ up.listed h ↔
    (1 ≤ p.partNumber ∧ p.partNumber ≤ maxParts) ∧ ∃ body, up.parts p.partNumber = some body ∧
      p.etag = h.single body ∧ p.size = body.length := by
  unfold Upload.listed
  rw [List.mem_filterMap]
  constructor
  · rintro ⟨n, hn, hp⟩
    rw [Option.map_eq_some_iff] at hp
    obtain ⟨body, hbody, rfl⟩ := hp
    have hrange := List.mem_range'_1.mp hn
    have hle : n ≤ maxParts := by omega
    exact ⟨⟨hrange.1, hle⟩, body, hbody, rfl, rfl⟩
  · rintro ⟨hrange, body, hbody, hetag, hlen⟩
    refine ⟨p.partNumber, List.mem_range'_1.mpr ⟨hrange.1, by omega⟩, ?_⟩
    rw [hbody, Option.map_some, ← hetag, ← hlen]

/-- The numbers of the listed parts. -/
theorem listed_numbers : (up.listed h).map UploadedPart.partNumber =
    (List.range' 1 maxParts).filter fun n => (up.parts n).isSome := by
  unfold Upload.listed
  induction List.range' 1 maxParts with
  | nil => rfl
  | cons n ns ih =>
      cases hn : up.parts n with
      | none => simp [hn, ih]
      | some body => simp [hn, ih]

/-- Parts are listed in ascending order. -/
theorem listed_sorted : (up.listed h).Pairwise fun p q => p.partNumber < q.partNumber := by
  have hsorted : ((up.listed h).map UploadedPart.partNumber).Pairwise (· < ·) := by
    rw [listed_numbers]
    exact List.Pairwise.filter _ List.pairwise_lt_range'
  exact List.pairwise_map.mp hsorted

/-- The pages together are the listing, and in order already. -/
theorem listPartsPaged_eq (b : Bucket) {pageSize : ℕ → ℕ} (hsize : ∀ m, 0 < pageSize m)
    (key : ObjectKey) (u : UploadId) : b.listPartsPaged h pageSize key u = b.listParts h key u := by
  unfold Bucket.listPartsPaged Bucket.listParts
  cases b.openUpload key u with
  | none => rfl
  | some up =>
      have hlen : (up.listed h).length < maxParts + 1 := by
        have hle := List.length_filterMap_le (fun n => (up.parts n).map fun body =>
          (⟨n, h.single body, body.length⟩ : UploadedPart)) (List.range' 1 maxParts)
        rw [List.length_range'] at hle
        exact Nat.lt_succ_of_le hle
      have hread : Pages.collect UploadedPart.partNumber (up.listed h) pageSize (maxParts + 1) 0 []
          = some (up.listed h) :=
        Pages.collect_eq listed_sorted (fun p hp => (mem_listed.mp hp).1.1) hsize hlen
      have hsorted : (up.listed h).Pairwise fun p q => decide (p.partNumber ≤ q.partNumber) = true :=
        listed_sorted.imp fun hlt => decide_eq_true (Nat.le_of_lt hlt)
      rw [Option.bind_some, hread, Option.map_some, List.mergeSort_of_pairwise hsorted]
      rfl

/-! ## The parts of a plan -/

/-- Every part there is a part of the plan, of the planned length. -/
def Fits (up : Upload) (plan : PartPlan) (size : ℕ) : Prop :=
  ∀ n body, up.parts n = some body →
    1 ≤ n ∧ n ≤ plan.partCount ∧ body.length = partLength plan size n

variable {plan : PartPlan} {size : ℕ}

/-- The listed numbers are the uploaded ones, in the range of the plan. -/
theorem Fits.numbers (hf : Fits up plan size) (hc : Covers plan size) :
    (up.listed h).map UploadedPart.partNumber =
      (List.range' 1 plan.partCount).filter fun n => (up.parts n).isSome := by
  obtain ⟨m, hm⟩ : ∃ m, maxParts = plan.partCount + m := Nat.exists_eq_add_of_le hc.count_le
  have hrest : (List.range' (1 + plan.partCount) m).filter (fun n => (up.parts n).isSome) = [] := by
    rw [List.filter_eq_nil_iff]
    intro n hn hsome
    obtain ⟨body, hbody⟩ := Option.isSome_iff_exists.mp hsome
    have hle := (hf n body hbody).2.1
    have hge := (List.mem_range'_1.mp hn).1
    omega
  rw [listed_numbers, hm, ← List.range'_append_1, List.filter_append, hrest, List.append_nil]

/-- Parts that fit the plan are listed with the sizes of the plan. -/
theorem Fits.sizes (hf : Fits up plan size) :
    ∀ p ∈ up.listed h, p.size = partLength plan size p.partNumber := by
  intro p hp
  obtain ⟨-, body, hbody, -, hsize⟩ := mem_listed.mp hp
  rw [hsize]
  exact (hf _ body hbody).2.2

/-- As many parts as planned means all of them. -/
theorem Fits.length_iff (hf : Fits up plan size) (hc : Covers plan size) :
    (up.listed h).length = plan.partCount ↔
      ∀ n, 1 ≤ n → n ≤ plan.partCount → (up.parts n).isSome := by
  have hlen : (up.listed h).length =
      ((List.range' 1 plan.partCount).filter fun n => (up.parts n).isSome).length := by
    rw [← hf.numbers (h := h) hc, List.length_map]
  have hall := List.length_filter_eq_length_iff (l := List.range' 1 plan.partCount)
    (p := fun n => (up.parts n).isSome)
  rw [List.length_range'] at hall
  rw [hlen, hall]
  constructor
  · intro hp n hn hle
    exact hp n (List.mem_range'_1.mpr ⟨hn, by omega⟩)
  · intro hp n hn
    have hrange := List.mem_range'_1.mp hn
    exact hp n hrange.1 (by omega)

end Marketplace.Files
