import Marketplace.Core.JsObject

/-!
# Files.Policy — what may be uploaded

`src/files/policy.ts`: the allowlist with its size caps, the multipart plan and the
magic bytes. `ALLOWED_TYPES[…]` and `MAGIC[…]` are lookups on plain objects.
-/

namespace Marketplace.Files

open Core.JsObject

abbrev Bytes := List UInt8

def miB : ℕ := 1024 * 1024
def giB : ℕ := 1024 * miB

structure AllowedType where
  ext : String
  maxBytes : ℕ
deriving DecidableEq, Repr

/-- The own properties of `ALLOWED_TYPES`. -/
def allowedTypes : List (String × AllowedType) :=
  [("image/png", ⟨"png", 20 * miB⟩), ("image/jpeg", ⟨"jpg", 20 * miB⟩),
    ("image/webp", ⟨"webp", 20 * miB⟩), ("application/pdf", ⟨"pdf", 100 * miB⟩),
    ("application/gzip", ⟨"gz", 1024 * giB⟩)]

def putUrlTtlSec : ℕ := 5 * 60
def partUrlTtlSec : ℕ := 15 * 60

def maxParts : ℕ := 10000
def minPartBytes : ℕ := 5 * miB
def maxPartBytes : ℕ := 5 * giB
def maxObjectBytes : ℕ := 5 * 1024 * giB

def retryBudgetSec : ℕ := 64
def slowLinkBytesPerSec : ℕ := 128 * 1024

/-- `Math.ceil(a / b)`. -/
def ceilDiv (a b : ℕ) : ℕ := (a + b - 1) / b

def multipartThreshold (budgetSec bytesPerSec : ℕ) : ℕ :=
  let bySpeed := ceilDiv (budgetSec * bytesPerSec) miB * miB
  max bySpeed (minPartBytes + miB)

def multipartThresholdBytes : ℕ := multipartThreshold retryBudgetSec slowLinkBytesPerSec

structure PartPlan where
  partSize : ℕ
  partCount : ℕ
deriving DecidableEq, Repr

/-- `planParts`; the error is the message of the `Error` it throws. -/
def planParts (size : ℕ) : Except String PartPlan :=
  if maxObjectBytes < size then .error "object too large for S3"
  else
    let byCount := ceilDiv (ceilDiv size maxParts) miB * miB
    let partSize := max minPartBytes byCount
    if maxPartBytes < partSize then .error "part size above the S3 maximum"
    else .ok ⟨partSize, ceilDiv size partSize⟩

def partLength (plan : PartPlan) (size partNumber : ℕ) : ℕ :=
  if partNumber < plan.partCount then plan.partSize
  else size - plan.partSize * (plan.partCount - 1)

/-- `Buffer.toString('latin1')`. -/
def latin1 (b : Bytes) : String := String.ofList (b.map fun x => Char.ofNat x.toNat)

/-- `b.subarray(start, stop)`. -/
def subarray (start stop : ℕ) (b : Bytes) : Bytes := (b.drop start).take (stop - start)

/-- The own properties of `MAGIC`. -/
def magic : List (String × (Bytes → Bool)) :=
  [("image/png", fun b => subarray 0 8 b == [0x89, 0x50, 0x4e, 0x47, 0x0d, 0x0a, 0x1a, 0x0a]),
    ("image/jpeg", fun b => b[0]? == some 0xff && b[1]? == some 0xd8 && b[2]? == some 0xff),
    ("image/webp", fun b => latin1 (subarray 0 4 b) == "RIFF" && latin1 (subarray 8 12 b) == "WEBP"),
    ("application/pdf", fun b => latin1 (subarray 0 5 b) == "%PDF-"),
    ("application/gzip", fun b => b[0]? == some 0x1f && b[1]? == some 0x8b)]

def magicBytes : ℕ := 16

/-- The buffer converts to the string `s`, where `s` is ASCII: UTF-8 gives such a string
for its own bytes only. -/
def decodesTo (head : Bytes) (s : String) : Bool :=
  head == s.toList.map fun c => UInt8.ofNat c.toNat

/-- `MAGIC[contentType]?.(head) ?? false`, as `if` sees it; `error` for a TypeError. -/
def magicMatches (contentType : String) (head : Bytes) : Except Unit Bool :=
  match lookup magic contentType with
  | .own rule => .ok (rule head)
  | .inherited m => m.call (magic.map Prod.fst) (decodesTo head)
  | .undefined => .ok false

/-! ## The rules as written -/

/-- The five keys of the allowlist. -/
def listedTypes : List String := allowedTypes.map Prod.fst

/-- The type is listed, and the size within the cap written for it. -/
def Allowed (contentType : String) (size : ℕ) : Prop :=
  ∃ type, allowedTypes.lookup contentType = some type ∧ size ≤ type.maxBytes

/-- The type is listed, and the bytes satisfy the rule written for it. -/
def MagicRule (contentType : String) (head : Bytes) : Prop :=
  ∃ rule, magic.lookup contentType = some rule ∧ rule head = true

theorem magic_keys : magic.map Prod.fst = listedTypes := rfl

/-- No name of `Object.prototype` is a listed type. -/
theorem listed_not_proto : ∀ ct ∈ listedTypes, ct ∉ protoNames := by decide

/-- A listed type is looked up as an own entry. -/
theorem lookup_listed {β : Type} {l : List (String × β)} {ct : String}
    (h : ct ∈ l.map Prod.fst) : ∃ b, l.lookup ct = some b ∧ lookup l ct = .own b := by
  cases hb : l.lookup ct with
  | none => exact absurd h (lookup_eq_none_iff.mp hb)
  | some b => exact ⟨b, rfl, by unfold lookup; rw [hb]⟩

/-- The magic bytes are accepted through an inherited member: the type is one of its
names, and calling it gives something truthy. -/
def InheritedAccepts (contentType : String) (head : Bytes) : Prop :=
  ∃ m, lookup magic contentType = .inherited m ∧
    m.call (magic.map Prod.fst) (decodesTo head) = .ok true

/-- What `magicMatches` accepts, and through which branch. -/
theorem magicMatches_iff {ct : String} {head : Bytes} :
    magicMatches ct head = .ok true ↔ MagicRule ct head ∨ InheritedAccepts ct head := by
  unfold magicMatches
  constructor
  · intro h
    split at h
    · next rule hl =>
        left
        have hin : ct ∈ magic.map Prod.fst := lookup_own_iff.mp ⟨rule, hl⟩
        obtain ⟨rule', hr, hl'⟩ := lookup_listed hin
        rw [hl] at hl'
        cases hl'
        exact ⟨rule, hr, by simpa using h⟩
    · next m hl => exact Or.inr ⟨m, hl, h⟩
    · cases h
  · rintro (⟨rule, hr, hh⟩ | ⟨m, hl, hm⟩)
    · have hl : lookup magic ct = .own rule := by
        unfold lookup
        rw [hr]
      rw [hl]
      exact congrArg Except.ok hh
    · rw [hl]
      exact hm

/-- Only listed types have a rule for their first bytes. -/
theorem MagicRule.listed {ct : String} {head : Bytes} (h : MagicRule ct head) :
    ct ∈ listedTypes := by
  obtain ⟨rule, hr, -⟩ := h
  by_contra hn
  rw [← magic_keys] at hn
  rw [lookup_eq_none_iff.mpr hn] at hr
  cases hr

/-- The two branches exclude each other. -/
theorem MagicRule.not_inherited {ct : String} {head : Bytes} (h : MagicRule ct head) :
    ¬ InheritedAccepts ct head := by
  rintro ⟨m, hl, -⟩
  have hp := lookup_inherited_mem hl
  exact hp.1 (magic_keys ▸ h.listed)

end Marketplace.Files
