import Marketplace.Core.Base64
import Marketplace.Core.JsText
import Marketplace.Http

/-!
# Auth.Password — what a stored password lets in

`src/auth/password.ts`. `verifyPassword` takes everything from the stored string, the length of
the key included. A string that `hashPassword` made lets exactly the passwords with the same key
in. Any other string of the right form is compared at the length its own hash decodes to; where
that is no byte at all, every password fits (`zero_length_accepts`).

The salts are arguments: they come from `randomBytes`.
-/

namespace Marketplace.Auth

open Core JsString JsText

/-! ## The functions -/

/-- The options of scrypt, before `Number` rounds them; `none` for NaN and the infinities. -/
structure ScryptOptions where
  N : Option ℚ
  r : Option ℚ
  p : Option ℚ

/-- scrypt: `none` where it rejects its options, and otherwise as many bytes as asked for. -/
structure Scrypt where
  derive : String → List UInt8 → ℕ → ScryptOptions → Option (List UInt8)
  length : ∀ password salt keylen options key, derive password salt keylen options = some key →
    key.length = keylen

def SCRYPT_N : ℤ := 16384

def SCRYPT_R : ℤ := 8

def SCRYPT_P : ℤ := 1

def KEY_LEN : ℕ := 32

/-- The options that `hashPassword` uses. -/
def scryptOptions : ScryptOptions := ⟨some SCRYPT_N, some SCRYPT_R, some SCRYPT_P⟩

def encode (n r p : ℤ) (salt hash : List UInt8) : List Char :=
  "scrypt".toList ++ '$' :: (toString n).toList ++ '$' :: (toString r).toList ++
    '$' :: (toString p).toList ++ '$' :: Base64.encode salt ++ '$' :: Base64.encode hash

def hashPassword (scrypt : Scrypt) (password : String) (salt : List UInt8) : Option String :=
  (scrypt.derive password salt KEY_LEN scryptOptions).map fun hash =>
    String.ofList (encode SCRYPT_N SCRYPT_R SCRYPT_P salt hash)

/-- The string a missing user is compared with. -/
def dummyHash (scrypt : Scrypt) (salt : List UInt8) : Option String :=
  hashPassword scrypt "not-a-real-password" salt

def verifyPassword (scrypt : Scrypt) (dummySalt : List UInt8) (password : String)
    (stored : Option String) : Except Thrown Bool :=
  match stored <|> dummyHash scrypt dummySalt with
  | none => .error (.error "scrypt")
  | some against =>
      match split '$' against.toList with
      | [scheme, n, r, p, salt, hash] =>
          if scheme ≠ "scrypt".toList then .ok false
          else
            let expected := Base64.decode (utf16 hash)
            match scrypt.derive password (Base64.decode (utf16 salt)) expected.length
                ⟨number n, number r, number p⟩ with
            | none => .error (.error "scrypt")
            | some actual =>
                let same := actual.length = expected.length ∧ actual = expected
                .ok (decide (stored ≠ none ∧ same))
      | _ => .ok false

/-! ## Failing closed -/

/-- A string of the form `scrypt$N$r$p$salt$hash`. -/
structure SixParts (stored : String) where
  n : List Char
  r : List Char
  p : List Char
  salt : List Char
  hash : List Char
  parts : split '$' stored.toList = ["scrypt".toList, n, r, p, salt, hash]

/-- The key that a password derives under the stored salt and options. -/
def SixParts.derive {stored : String} (six : SixParts stored) (scrypt : Scrypt)
    (password : String) (keylen : ℕ) : Option (List UInt8) :=
  scrypt.derive password (Base64.decode (utf16 six.salt)) keylen
    ⟨number six.n, number six.r, number six.p⟩

/-- The bytes that the stored hash decodes to. -/
def SixParts.key {stored : String} (six : SixParts stored) : List UInt8 :=
  Base64.decode (utf16 six.hash)

/-- Whatever is let in has derived the 32 bytes that are stored. -/
def FailsClosed (stored : String) : Prop :=
  ∀ scrypt dummySalt password,
    verifyPassword scrypt dummySalt password (some stored) = .ok true →
    ∃ six : SixParts stored, six.key.length = KEY_LEN ∧
      six.derive scrypt password KEY_LEN = some six.key

/-- A hash of six parts is a key of 32 bytes. -/
def Keyed (stored : String) : Prop :=
  ∀ six : SixParts stored, six.key.length = KEY_LEN

/-! ## What lets a password in -/

section

variable {scrypt : Scrypt} {dummySalt : List UInt8} {password stored : String}

/-- On a stored text of six parts the answer is that of the comparison, with the parameters in it.
-/
theorem verify_six (six : SixParts stored) :
    verifyPassword scrypt dummySalt password (some stored) =
      match six.derive scrypt password six.key.length with
      | none => .error (.error "scrypt")
      | some actual => .ok (decide (actual = six.key)) := by
  unfold verifyPassword
  rw [show (some stored <|> dummyHash scrypt dummySalt) = some stored from rfl]
  dsimp only
  rw [six.parts]
  dsimp only
  rw [if_neg (not_not.mpr rfl)]
  unfold SixParts.derive SixParts.key
  split
  · rfl
  · next actual hactual =>
      have hlength := scrypt.length _ _ _ _ _ hactual
      simp [hlength]

/-- Exactly the passwords that derive the stored key, at its own length, are let in. -/
theorem verify_iff : verifyPassword scrypt dummySalt password (some stored) = .ok true ↔
    ∃ six : SixParts stored, six.derive scrypt password six.key.length =
      some six.key := by
  constructor
  · intro h
    have hsix : ∃ six : SixParts stored, True := by
      unfold verifyPassword at h
      rw [show (some stored <|> dummyHash scrypt dummySalt) = some stored from rfl] at h
      dsimp only at h
      split at h
      · next scheme n r p salt hash hparts =>
          split at h
          · cases h
          · next hscheme =>
              obtain rfl := not_not.mp hscheme
              exact ⟨⟨n, r, p, salt, hash, hparts⟩, trivial⟩
      · cases h
    obtain ⟨six, -⟩ := hsix
    rw [verify_six six] at h
    refine ⟨six, ?_⟩
    split at h
    · cases h
    · next actual hactual =>
        rw [Except.ok.injEq, decide_eq_true_eq] at h
        rw [hactual, h]
  · rintro ⟨six, hderive⟩
    rw [verify_six six, hderive]
    simp

/-- A stored text is taken apart in one way. -/
theorem SixParts.unique (six six' : SixParts stored) : six = six' := by
  obtain ⟨n, r, p, salt, hash, hparts⟩ := six
  obtain ⟨n', r', p', salt', hash', hparts'⟩ := six'
  rw [hparts] at hparts'
  simp only [List.cons.injEq, and_true, true_and] at hparts'
  obtain ⟨rfl, rfl, rfl, rfl, rfl⟩ := hparts'
  rfl

/-! ## Stored by `hashPassword` -/

theorem dollar_notMem (buffer : List UInt8) : '$' ∉ Base64.encode buffer := by
  intro hin
  exact absurd (Base64.encode_forall (p := (· ≠ '$')) (by decide) _ hin) (by decide)

/-- What `encode` writes has six parts. -/
theorem split_encode (salt hash : List UInt8) :
    split '$' (encode SCRYPT_N SCRYPT_R SCRYPT_P salt hash) =
      ["scrypt".toList, (toString SCRYPT_N).toList, (toString SCRYPT_R).toList,
        (toString SCRYPT_P).toList, Base64.encode salt, Base64.encode hash] := by
  unfold encode
  simp only [List.append_assoc, List.cons_append]
  rw [split_cons_sep (by decide), split_cons_sep (by decide), split_cons_sep (by decide),
    split_cons_sep (by decide), split_cons_sep (dollar_notMem salt),
    split_of_notMem (dollar_notMem hash)]

/-- What `hashPassword` stores lets in the passwords with the same key. -/
theorem verify_hashed {salt : List UInt8} {password' : String}
    (h : hashPassword scrypt password salt = some stored) :
    verifyPassword scrypt dummySalt password' (some stored) = .ok true ↔
      scrypt.derive password' salt KEY_LEN scryptOptions =
        scrypt.derive password salt KEY_LEN scryptOptions := by
  obtain ⟨hash, hhash, rfl⟩ := Option.map_eq_some_iff.mp h
  have hlength : hash.length = KEY_LEN := scrypt.length _ _ _ _ _ hhash
  have hparts := split_encode salt hash
  rw [← String.toList_ofList (l := encode _ _ _ _ _)] at hparts
  have hkey : (SixParts.mk _ _ _ _ _ hparts).key = hash := Base64.decode_utf16_encode hash
  have hderive : ∀ password, (SixParts.mk _ _ _ _ _ hparts).derive scrypt password hash.length =
        scrypt.derive password salt KEY_LEN scryptOptions := by
    intro password
    unfold SixParts.derive
    simp only [number_toString, Base64.decode_utf16_encode, hlength]
    rfl
  rw [verify_iff, hhash]
  constructor
  · rintro ⟨six, hsix⟩
    obtain rfl := six.unique ⟨_, _, _, _, _, hparts⟩
    rw [hkey, hderive] at hsix
    exact hsix
  · intro hsame
    refine ⟨⟨_, _, _, _, _, hparts⟩, ?_⟩
    rw [hkey, hderive, hsame]

/-! ## Stored otherwise -/

/-- A scrypt that derives these bytes from every password. -/
def Scrypt.constant (key : List UInt8) : Scrypt where
  derive _ _ keylen _ := some (if keylen = key.length then key else List.replicate keylen 0)
  length password salt keylen options k h := by
    obtain rfl := Option.some.inj h
    split
    · next heq => exact heq.symm
    · exact List.length_replicate

/-- A hash of no bytes is derived from every password. -/
theorem zero_length_accepts (six : SixParts stored) (hzero : six.key = [])
    (hoptions : six.derive scrypt password 0 ≠ none) :
    verifyPassword scrypt dummySalt password (some stored) = .ok true := by
  refine verify_iff.mpr ⟨six, ?_⟩
  rw [hzero, List.length_nil]
  cases hderive : six.derive scrypt password 0 with
  | none => exact absurd hderive hoptions
  | some key => rw [List.length_eq_zero_iff.mp (scrypt.length _ _ _ _ _ hderive)]

/-- Verification fails closed exactly on the stored texts that hold a key. -/
theorem failsClosed_iff : FailsClosed stored ↔ Keyed stored := by
  constructor
  · -- another length is the length of what some scrypt derives
    intro h six
    have htrue : verifyPassword (.constant six.key) [] "" (some stored) =
        .ok true := by
      refine verify_iff.mpr ⟨six, ?_⟩
      simp [SixParts.derive, Scrypt.constant]
    obtain ⟨six', hlength, -⟩ := h _ _ _ htrue
    rwa [six.unique six']
  · intro h scrypt dummySalt password htrue
    obtain ⟨six, hderive⟩ := verify_iff.mp htrue
    refine ⟨six, h six, ?_⟩
    rw [← h six]
    exact hderive

/-- Nobody is let in without a stored password. -/
theorem verify_null : verifyPassword scrypt dummySalt password none ≠ .ok true ∧
    ((∀ p, scrypt.derive p dummySalt KEY_LEN scryptOptions ≠ none) →
      verifyPassword scrypt dummySalt password none = .ok false) := by
  unfold verifyPassword
  rw [show (none <|> dummyHash scrypt dummySalt) = dummyHash scrypt dummySalt from rfl]
  cases hdummy : dummyHash scrypt dummySalt with
  | none =>
      constructor
      · intro h
        cases h
      · intro hderives
        exact absurd (Option.map_eq_none_iff.mp hdummy) (hderives _)
  | some against =>
      obtain ⟨hash, hhash, rfl⟩ := Option.map_eq_some_iff.mp hdummy
      have hlength : hash.length = KEY_LEN := scrypt.length _ _ _ _ _ hhash
      dsimp only
      rw [String.toList_ofList, split_encode]
      simp only [number_toString, Base64.decode_utf16_encode, hlength]
      rw [if_neg (not_not.mpr rfl)]
      constructor
      · intro h
        split at h
        · cases h
        · simp at h
      · intro hderives
        split
        · next hnone => exact absurd hnone (hderives password)
        · simp

end

/-- What a stored password lets in, and when a stored string fails closed. -/
theorem password_exact_iff (scrypt : Scrypt) (dummySalt : List UInt8) :
    (∀ (salt : List UInt8) (password stored : String),
      hashPassword scrypt password salt = some stored →
      ∀ password', verifyPassword scrypt dummySalt password' (some stored) = .ok true ↔
        scrypt.derive password' salt KEY_LEN scryptOptions =
          scrypt.derive password salt KEY_LEN scryptOptions) ∧
    (∀ stored, FailsClosed stored ↔ Keyed stored) ∧
    ∀ password : String,
      verifyPassword scrypt dummySalt password none ≠ .ok true ∧
      ((∀ p, scrypt.derive p dummySalt KEY_LEN scryptOptions ≠ none) →
        verifyPassword scrypt dummySalt password none = .ok false) := by
  refine ⟨?_, fun stored => failsClosed_iff, fun password => verify_null⟩
  intro salt password stored h password'
  exact verify_hashed h

/-- A password that was hashed is accepted, with a derivation that gives the same key. -/
theorem password_exact_secret : ∃ stored,
    hashPassword (.constant (List.replicate 32 1)) "secret" (List.replicate 16 7) = some stored ∧
    verifyPassword (.constant (List.replicate 32 1)) [] "secret" (some stored) = .ok true := by
  refine ⟨_, rfl, ?_⟩
  exact ((password_exact_iff (.constant (List.replicate 32 1)) []).1 (List.replicate 16 7) "secret" _
    rfl "secret").mpr rfl

/-- `scrypt$16384$8$1$c2FsdA$` lets every password in. -/
theorem empty_hash_accepts :
    (∀ password, verifyPassword (.constant (List.replicate 32 1)) [] password
      (some "scrypt$16384$8$1$c2FsdA$") = .ok true) ∧
    ¬ FailsClosed "scrypt$16384$8$1$c2FsdA$" := by
  have six : SixParts "scrypt$16384$8$1$c2FsdA$" :=
    ⟨"16384".toList, "8".toList, "1".toList, "c2FsdA".toList, [], by decide⟩
  have hkey : six.key = [] := by
    rw [six.unique ⟨"16384".toList, "8".toList, "1".toList, "c2FsdA".toList, [], by decide⟩]
    rfl
  have haccepts : ∀ password, verifyPassword (.constant (List.replicate 32 1)) [] password
      (some "scrypt$16384$8$1$c2FsdA$") = .ok true := by
    intro password
    refine zero_length_accepts six hkey ?_
    simp [SixParts.derive, Scrypt.constant]
  refine ⟨haccepts, ?_⟩
  intro h
  obtain ⟨six', hlength, -⟩ := h _ _ _ (haccepts "")
  rw [six'.unique six, hkey] at hlength
  exact absurd hlength (by decide)

end Marketplace.Auth
