import Mathlib.Data.List.TakeWhile
import Marketplace.Core.JsString

/-!
# Core.Base64 — base64url

Bytes as text, without padding, and the decoder that Node has: it looks at the low eight bits of
each code unit, reads both alphabets, ends at the first `=`, skips every other character, and drops
the bits that do not fill a byte.
-/

namespace Core.Base64

open JsString

/-- The character of six bits. -/
def symbol (n : ℕ) : Char :=
  if n < 26 then Char.ofNat ('A'.toNat + n)
  else if n < 52 then Char.ofNat ('a'.toNat + (n - 26))
  else if n < 62 then Char.ofNat ('0'.toNat + (n - 52))
  else if n = 62 then '-'
  else '_'

/-- The six bits of a character of either alphabet. -/
def sextet (c : Char) : Option ℕ :=
  if 'A' ≤ c ∧ c ≤ 'Z' then some (c.toNat - 'A'.toNat)
  else if 'a' ≤ c ∧ c ≤ 'z' then some (c.toNat - 'a'.toNat + 26)
  else if '0' ≤ c ∧ c ≤ '9' then some (c.toNat - '0'.toNat + 52)
  else if c = '-' ∨ c = '+' then some 62
  else if c = '_' ∨ c = '/' then some 63
  else none

def sextets : List UInt8 → List ℕ
  | [] => []
  | [a] => [a.toNat / 4, a.toNat % 4 * 16]
  | [a, b] => [a.toNat / 4, a.toNat % 4 * 16 + b.toNat / 16, b.toNat % 16 * 4]
  | a :: b :: c :: bytes =>
      [a.toNat / 4, a.toNat % 4 * 16 + b.toNat / 16, b.toNat % 16 * 4 + c.toNat / 64,
        c.toNat % 64] ++ sextets bytes

def bytes : List ℕ → List UInt8
  | a :: b :: c :: d :: ns =>
      [UInt8.ofNat (4 * a + b / 16), UInt8.ofNat (b % 16 * 16 + c / 4),
        UInt8.ofNat (c % 4 * 64 + d)] ++ bytes ns
  | [a, b, c] => [UInt8.ofNat (4 * a + b / 16), UInt8.ofNat (b % 16 * 16 + c / 4)]
  | [a, b] => [UInt8.ofNat (4 * a + b / 16)]
  | _ => []

/-- `buffer.toString('base64url')`. -/
def encode (buffer : List UInt8) : List Char := (sextets buffer).map symbol

/-- The character that a code unit is looked up as. -/
def octet (u : ℕ) : Char := Char.ofNat (u % 256)

/-- `Buffer.from(s, 'base64url')`. -/
def decode (s : Units) : List UInt8 :=
  bytes (((s.map octet).takeWhile (· ≠ '=')).filterMap sextet)

example : encode [0xFB, 0xFF] = "-_8".toList := by decide

example : decode (units "-/8=".toList) = [0xFB, 0xFF] := by decide

example : decode (units "*QU=JD".toList) = [0x41] := by decide

example : decode (0x141 :: units "UJD".toList) = [0x01, 0x42, 0x43] := by decide

/-! ## The decoder undoes the encoder -/

/-- A sextet is below 64, so it has a letter of the alphabet. -/
theorem sextets_lt {buffer : List UInt8} : ∀ n ∈ sextets buffer, n < 64 := by
  induction buffer using sextets.induct with
  | case1 => simp [sextets]
  | case2 a =>
      have ha := a.toNat_lt
      simp only [sextets, List.mem_cons, List.not_mem_nil, or_false, forall_eq_or_imp, forall_eq]
      omega
  | case3 a b =>
      have ha := a.toNat_lt
      have hb := b.toNat_lt
      simp only [sextets, List.mem_cons, List.not_mem_nil, or_false, forall_eq_or_imp, forall_eq]
      omega
  | case4 a b c buffer ih =>
      have ha := a.toNat_lt
      have hb := b.toNat_lt
      have hc := c.toNat_lt
      rw [sextets, List.forall_mem_append]
      refine ⟨?_, ih⟩
      simp only [List.mem_cons, List.not_mem_nil, or_false, forall_eq_or_imp, forall_eq]
      omega

/-- Cutting bytes into sextets and putting them together again gives the bytes back, whatever is
left at the end. -/
theorem bytes_sextets (buffer : List UInt8) : bytes (sextets buffer) = buffer := by
  have hbyte : ∀ (a : UInt8) (n : ℕ), n = a.toNat → UInt8.ofNat n = a := by
    rintro a n rfl
    exact UInt8.ofNat_toNat
  induction buffer using sextets.induct with
  | case1 => rfl
  | case2 a =>
      have ha := a.toNat_lt
      simp only [sextets, bytes]
      rw [hbyte a _ (by omega)]
  | case3 a b =>
      have ha := a.toNat_lt
      have hb := b.toNat_lt
      simp only [sextets, bytes]
      rw [hbyte a _ (by omega), hbyte b _ (by omega)]
  | case4 a b c buffer ih =>
      have ha := a.toNat_lt
      have hb := b.toNat_lt
      have hc := c.toNat_lt
      simp only [sextets, List.cons_append, List.nil_append, bytes, ih]
      rw [hbyte a _ (by omega), hbyte b _ (by omega), hbyte c _ (by omega)]

theorem sextet_symbol {n : ℕ} (h : n < 64) : sextet (symbol n) = some n := by
  decide +revert

theorem symbol_mem {n : ℕ} (h : n < 64) :
    symbol n ∈ "ABCDEFGHIJKLMNOPQRSTUVWXYZabcdefghijklmnopqrstuvwxyz0123456789-_".toList := by
  decide +revert

/-- What every character of the alphabet satisfies, every character of a text does. -/
theorem encode_forall {p : Char → Bool} {buffer : List UInt8}
    (h : "ABCDEFGHIJKLMNOPQRSTUVWXYZabcdefghijklmnopqrstuvwxyz0123456789-_".toList.all p = true) :
    ∀ c ∈ encode buffer, p c = true := by
  intro c hc
  obtain ⟨n, hn, rfl⟩ := List.mem_map.mp hc
  exact List.all_eq_true.mp h _ (symbol_mem (sextets_lt n hn))

/-- An encoded text is ASCII. -/
theorem utf16_encode (buffer : List UInt8) : utf16 (encode buffer) = units (encode buffer) := by
  refine utf16_eq_units fun c hc => ?_
  have hascii : decide (c.toNat < 0x10000) = true :=
    encode_forall (p := fun c => decide (c.toNat < 0x10000)) (by decide) c hc
  exact of_decide_eq_true hascii

/-- A buffer is read back. -/
theorem decode_encode (buffer : List UInt8) : decode (units (encode buffer)) = buffer := by
  -- no character of the text is changed by `octet`, and none is the end of it
  have hoctets : (units (encode buffer)).map octet = encode buffer := by
    unfold units
    rw [List.map_map]
    have hsame : ∀ c ∈ encode buffer, (octet ∘ Char.toNat) c = c := fun c hc =>
      of_decide_eq_true (encode_forall
        (p := fun c => decide ((octet ∘ Char.toNat) c = c)) (by decide) c hc)
    rw [List.map_congr_left hsame, List.map_id']
  have hwhole : (encode buffer).takeWhile (· ≠ '=') = encode buffer :=
    List.takeWhile_eq_self_iff.mpr fun c hc =>
      encode_forall (p := (· ≠ '=')) (by decide) c hc
  have hfilter : (encode buffer).filterMap sextet = sextets buffer := by
    unfold encode
    rw [List.filterMap_map]
    have hsome : ∀ n ∈ sextets buffer, (sextet ∘ symbol) n = some n :=
      fun n hn => sextet_symbol (sextets_lt n hn)
    rw [List.filterMap_congr hsome, List.filterMap_some]
  rw [decode, hoctets, hwhole, hfilter, bytes_sextets]

theorem decode_utf16_encode (buffer : List UInt8) : decode (utf16 (encode buffer)) = buffer := by
  rw [utf16_encode, decode_encode]

end Core.Base64
