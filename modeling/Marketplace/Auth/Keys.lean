import Marketplace.Auth.Tokens
import Marketplace.Core.Base64
import Marketplace.Core.JsMap
import Marketplace.Core.JsonText
import Marketplace.Core.Substring
import Marketplace.Core.Utf8
import Mathlib.Data.List.Sort

/-!
# Auth.Keys — the key ring of a process

`src/auth/config.ts` and the rest of `src/auth/tokens.ts`. `loadAuthConfig` is the first call,
the later ones return what it has cached. `Crypto` is what the code uses of `node:crypto`, and
`JsonWebToken` what it uses of `jsonwebtoken`: `verify_sign` says when a token is verified that
was signed with some key and options.

`accepted_iff`: which tokens of one process another one accepts, by their environments.
-/

namespace Marketplace.Auth

open Core JsString

/-- Keys, and signatures of texts. -/
structure Crypto where
  Private : Type
  Public : Type
  Signature : Type
  createPrivateKey : List Char → Option Private
  createPublicKey : List Char → Option Public
  privateIsP256 : Private → Bool
  publicIsP256 : Public → Bool
  publicOf : Private → Public
  sign : List Char → Private → Signature
  verify : List Char → Public → Signature → Bool
  verify_sign : ∀ text key pub, verify text pub (sign text key) = true ↔ pub = publicOf key

/-! ## The environment -/

/-- `process.env`. -/
abbrev Env := String → Option (List Char)

def authSecretVars : List String :=
  ["JWT_PRIVATE_KEY", "JWT_PUBLIC_KEY", "JWT_KID", "REFRESH_TOKEN_PEPPER"]

/-- `process.env[name]?.trim()`, and nothing for an undefined one. -/
def Env.text (env : Env) (name : String) : List Char := JsText.trim ((env name).getD [])

def Env.missing (env : Env) : List String := authSecretVars.filter fun name => env.text name = []

/-- A variable that is not missing has a text. -/
theorem Env.text_ne {env : Env} {name : String} (h : env.missing = [])
    (hname : name ∈ authSecretVars) : env.text name ≠ [] := by
  intro hblank
  have hmem : name ∈ env.missing := by
    rw [Env.missing, List.mem_filter]
    exact ⟨hname, by simpa using hblank⟩
  rw [h] at hmem
  cases hmem

/-- Base64 PEM to key. -/
def parseKey {K : Type} (create : List Char → Option K) (isP256 : K → Bool) (name kind : String)
    (b64 : List Char) : Except String K :=
  let pem := Utf8.decode (Base64.decode (utf16 (JsText.trim b64)))
  if (Substring.indexOf "-----BEGIN ".toList pem).isNone then
    .error s!"{name} is not a base64-encoded PEM"
  else
    match create pem with
    | none => .error s!"{name} could not be parsed as a {kind} key"
    | some key =>
        if isP256 key then .ok key else .error s!"{name} must be an EC P-256 key for ES256"

/-! ## JWT_PUBLIC_KEYS -/

/-- The names that are array indices. -/
def arrayIndex (name : String) : Option ℕ :=
  (JsText.digits 10 name.toList).filter fun n => toString n = name && n < 4294967295

/-- `Object.entries`: array indices come first, and ascend. -/
def objectEntries {α : Type} (fields : List (String × α)) : List (String × α) :=
  ((fields.filter fun f => (arrayIndex f.1).isSome).insertionSort fun f g =>
      (arrayIndex f.1).getD 0 ≤ (arrayIndex g.1).getD 0) ++
    fields.filter fun f => (arrayIndex f.1).isNone

def overlapEntry : String × JsonText.Value → Except String (String × List Char)
  | (kid, .str value) =>
      if JsText.trim value.toList = [] then .error s!"JWT_PUBLIC_KEYS entry {kid} is empty"
      else .ok (kid, value.toList)
  | (kid, _) => .error s!"JWT_PUBLIC_KEYS entry {kid} is empty"

/-- `out.__proto__ = value` sets no property of `out`. -/
def parseOverlap (dbl : Doubles) (text : List Char) : Except String (List (String × List Char)) :=
  if text = [] then .ok []
  else
    match JsonText.parse dbl text with
    | none => .error
        "JWT_PUBLIC_KEYS is not JSON (expected \x7b\"<kid>\":\"<base64 PEM>\"\x7d)"
    | some (.obj fields) =>
        ((objectEntries fields).mapM overlapEntry).map fun out =>
          out.filter fun entry => entry.1 ≠ "__proto__"
    | some _ => .error "JWT_PUBLIC_KEYS must be a JSON object of kid to base64 PEM"

section

variable (C : Crypto) (dbl : Doubles)

/-- The kid and the key of an entry. -/
def overlapKey (entry : String × List Char) : Except String (List Char × C.Public) :=
  (parseKey C.createPublicKey C.publicIsP256 s!"JWT_PUBLIC_KEYS.{entry.1}" "public" entry.2).map
    fun key => (entry.1.toList, key)

/-- The keys kept from before. -/
def overlapKeys (env : Env) : Except String (JsMap (List Char) C.Public) := do
  let entries ← parseOverlap dbl (env.text "JWT_PUBLIC_KEYS")
  let keys ← entries.mapM (overlapKey C)
  return keys.foldl (fun ring k => ring.set k.1 k.2) JsMap.empty

/-! ## loadAuthConfig -/

/-- The current key is in the ring, under its kid. -/
structure AuthConfig where
  kid : List Char
  privateKey : C.Private
  publicKeys : JsMap (List Char) C.Public
  pepper : List Char
  kid_ne : kid ≠ []
  current : publicKeys.get kid = some (C.publicOf privateKey)

def keyPairProbe : List Char := "marketplace-key-pair-check".toList

theorem current_set {C : Crypto} {ring : JsMap (List Char) C.Public} {kid : List Char}
    {key : C.Private} {pub : C.Public}
    (hpair : C.verify keyPairProbe pub (C.sign keyPairProbe key) = true) :
    (ring.set kid pub).get kid = some (C.publicOf key) := by
  rw [JsMap.get_set_self, (C.verify_sign _ _ _).mp hpair]

def loadAuthConfig (env : Env) : Except String (AuthConfig C) :=
  if hmissing : env.missing = [] then do
    let privateKey ← parseKey C.createPrivateKey C.privateIsP256 "JWT_PRIVATE_KEY" "private"
      (env.text "JWT_PRIVATE_KEY")
    let publicKey ← parseKey C.createPublicKey C.publicIsP256 "JWT_PUBLIC_KEY" "public"
      (env.text "JWT_PUBLIC_KEY")
    -- `assertSamePair`
    if hpair : C.verify keyPairProbe publicKey (C.sign keyPairProbe privateKey) = true then do
      let old ← overlapKeys C dbl env
      return {
        kid := env.text "JWT_KID"
        privateKey
        publicKeys := old.set (env.text "JWT_KID") publicKey
        pepper := env.text "REFRESH_TOKEN_PEPPER"
        kid_ne := Env.text_ne hmissing (List.mem_of_getElem? (i := 2) rfl)
        current := current_set hpair }
    else .error "JWT_PRIVATE_KEY and JWT_PUBLIC_KEY are not one key pair"
  else .error ("missing required secret: " ++ ", ".intercalate env.missing)

end

variable {C : Crypto} {dbl : Doubles} {env env' : Env} {cfg : AuthConfig C}

/-- The ring of a process that has started: its own key, and under other kids what
`JWT_PUBLIC_KEYS` lists. -/
theorem loadAuthConfig_ring (h : loadAuthConfig C dbl env = .ok cfg) :
    cfg.kid = env.text "JWT_KID" ∧ ∃ old, overlapKeys C dbl env = .ok old ∧
      cfg.publicKeys = old.set cfg.kid (C.publicOf cfg.privateKey) := by
  unfold loadAuthConfig at h
  split at h
  · cases hprivate : parseKey C.createPrivateKey C.privateIsP256 "JWT_PRIVATE_KEY" "private"
        (env.text "JWT_PRIVATE_KEY") with
    | error e =>
        rw [hprivate] at h
        cases h
    -- the private key was read; the public one, the check and the old keys follow in this order
    | ok privateKey =>
        rw [hprivate] at h
        cases hpublic : parseKey C.createPublicKey C.publicIsP256 "JWT_PUBLIC_KEY" "public"
            (env.text "JWT_PUBLIC_KEY") with
        | error e =>
            rw [hpublic] at h
            cases h
        | ok publicKey =>
            rw [hpublic] at h
            simp only [bind, Except.bind] at h
            split at h
            · next hpair =>
                cases hold : overlapKeys C dbl env with
                | error e =>
                    rw [hold] at h
                    cases h
                | ok old =>
                    rw [hold] at h
                    cases h
                    refine ⟨rfl, old, rfl, ?_⟩
                    rw [← (C.verify_sign _ _ _).mp hpair]
            · cases h
  · cases h

/-! ## Tokens -/

def Role.text : Role → String
  | .buyer => "buyer"
  | .seller => "seller"
  | .admin => "admin"

theorem isRole_text (role : Role) : isRole role.text = some role := by
  cases role <;> rfl

def jwtAlg : String := "ES256"
def jwtIssuer : String := "marketplace"
def jwtAudience : String := "marketplace-api"

structure Header where
  alg : String
  kid : Option (List Char)
deriving DecidableEq

/-- The claims of a token that the code reads. -/
structure Payload where
  role : Option String
  fid : Option FamilyId
  sub : Option UserId
  jti : Option Jti
  /-- Seconds since the epoch. -/
  exp : Option ℕ
deriving DecidableEq

/-- The options of `jwt.sign`. -/
structure SignOptions where
  algorithm : String
  expiresIn : ℕ
  issuer : String
  audience : String
  subject : UserId
  jwtid : Jti
  keyid : List Char
deriving DecidableEq

structure VerifyOptions where
  algorithms : List String
  issuer : String
  audience : String
deriving DecidableEq

/-- `jwt.sign` and `jwt.verify`, with the clock. The callback that `jwt.verify` is given finds
the key of a header, or none. -/
structure JsonWebToken (C : Crypto) where
  Token : Type
  sign : String → FamilyId → C.Private → SignOptions → ℕ → Token
  verify : Token → (Header → Option C.Public) → VerifyOptions → ℕ → Option Payload
  verify_sign : ∀ role fid key opts now getKey vopts now' payload,
    verify (sign role fid key opts now) getKey vopts now' = some payload ↔
      getKey ⟨opts.algorithm, some opts.keyid⟩ = some (C.publicOf key) ∧
        opts.algorithm ∈ vopts.algorithms ∧ opts.issuer = vopts.issuer ∧
        opts.audience = vopts.audience ∧ floorSec now' < floorSec now + opts.expiresIn ∧
        payload = ⟨some role, some fid, some opts.subject, some opts.jwtid,
          some (floorSec now + opts.expiresIn)⟩

namespace AccessTokens

variable (jwt : JsonWebToken C)

def sign (cfg : AuthConfig C) (now : ℕ) (jti : Jti) (userId : UserId) (role : Role)
    (familyId : FamilyId) : jwt.Token :=
  jwt.sign role.text familyId cfg.privateKey
    { algorithm := jwtAlg
      expiresIn := accessTtlSec
      issuer := jwtIssuer
      audience := jwtAudience
      subject := userId
      jwtid := jti
      keyid := cfg.kid } now

def keyFor (publicKeys : JsMap (List Char) C.Public) (header : Header) : Option C.Public :=
  header.kid.bind fun kid => if kid = [] then none else publicKeys.get kid

def readClaims (payload : Payload) : Option AccessClaims := do
  let sub ← payload.sub
  let jti ← payload.jti
  let exp ← payload.exp
  let role ← payload.role.bind isRole
  let fid ← payload.fid
  return { sub, role, jti, fid, exp }

/-- `none` is a rejected promise. -/
def verify (cfg : AuthConfig C) (now : ℕ) (token : jwt.Token) : Option AccessClaims :=
  (jwt.verify token (keyFor cfg.publicKeys)
    { algorithms := [jwtAlg], issuer := jwtIssuer, audience := jwtAudience } now).bind readClaims

end AccessTokens

/-- `cfg` has the key that `signer` signs with, under the kid `signer` writes. -/
def AuthConfig.Knows (cfg signer : AuthConfig C) : Prop :=
  cfg.publicKeys.get signer.kid = some (C.publicOf signer.privateKey)

theorem AuthConfig.knows_self (cfg : AuthConfig C) : cfg.Knows cfg := cfg.current

variable {jwt : JsonWebToken C} {signer : AuthConfig C} {now now' : ℕ} {jti : Jti} {userId : UserId}
  {role : Role} {familyId : FamilyId} {claims : AccessClaims}

/-- A process verifies a token exactly if it knows its key and the token has not expired, and
then reads the claims that were signed. -/
theorem verify_sign_iff :
    AccessTokens.verify jwt cfg now'
        (AccessTokens.sign jwt signer now jti userId role familyId) = some claims ↔
      cfg.Knows signer ∧ floorSec now' < floorSec now + accessTtlSec ∧
        claims = Auth.sign now jti userId role familyId := by
  have hkey : AccessTokens.keyFor cfg.publicKeys ⟨jwtAlg, some signer.kid⟩ =
      cfg.publicKeys.get signer.kid := by
    rw [AccessTokens.keyFor, Option.bind_some, if_neg signer.kid_ne]
  have hread : AccessTokens.readClaims ⟨some role.text, some familyId, some userId, some jti,
      some (floorSec now + accessTtlSec)⟩ = some (Auth.sign now jti userId role familyId) := by
    simp [AccessTokens.readClaims, isRole_text, Auth.sign]
  unfold AccessTokens.verify AccessTokens.sign
  rw [Option.bind_eq_some_iff]
  constructor
  · rintro ⟨payload, hpayload, hclaims⟩
    rw [jwt.verify_sign, hkey] at hpayload
    obtain ⟨hknows, -, -, -, hexp, rfl⟩ := hpayload
    rw [hread] at hclaims
    exact ⟨hknows, hexp, (Option.some.inj hclaims).symm⟩
  · rintro ⟨hknows, hexp, rfl⟩
    refine ⟨_, ?_, hread⟩
    rw [jwt.verify_sign, hkey]
    exact ⟨hknows, List.mem_singleton.mpr rfl, rfl, rfl, hexp, rfl⟩

/-- Between two processes that have started: the verifier signs with the same kid and the same
key, or has another kid and lists the signer's key under the signer's. -/
theorem accepted_iff (hsigner : loadAuthConfig C dbl env = .ok signer)
    (hcfg : loadAuthConfig C dbl env' = .ok cfg) :
    AccessTokens.verify jwt cfg now'
        (AccessTokens.sign jwt signer now jti userId role familyId) = some claims ↔
      (if env'.text "JWT_KID" = env.text "JWT_KID"
        then C.publicOf cfg.privateKey = C.publicOf signer.privateKey
        else ∃ old, overlapKeys C dbl env' = .ok old ∧
          old.get (env.text "JWT_KID") = some (C.publicOf signer.privateKey)) ∧
      floorSec now' < floorSec now + accessTtlSec ∧
        claims = Auth.sign now jti userId role familyId := by
  obtain ⟨hkid, -⟩ := loadAuthConfig_ring hsigner
  obtain ⟨hkid', old, hold, hring⟩ := loadAuthConfig_ring hcfg
  rw [verify_sign_iff, AuthConfig.Knows, hring, ← hkid, ← hkid']
  apply and_congr _ Iff.rfl
  split
  · next hsame =>
      rw [hsame, JsMap.get_set_self, Option.some.injEq]
  · next hother =>
      rw [JsMap.get_set_of_ne (Ne.symm hother)]
      constructor
      · intro hget
        exact ⟨old, hold, hget⟩
      · rintro ⟨old', hold', hget⟩
        rw [hold] at hold'
        obtain rfl := Except.ok.inj hold'
        exact hget

/-! ## Two processes -/

/-- Keys by the last character of their PEM text. -/
abbrev lastCharCrypto : Crypto where
  Private := Option Char
  Public := Option Char
  Signature := List Char × Option Char
  createPrivateKey pem := some pem.getLast?
  createPublicKey pem := some pem.getLast?
  privateIsP256 _ := true
  publicIsP256 _ := true
  publicOf key := key
  sign text key := (text, key)
  verify text pub sig := decide (sig = (text, pub))
  verify_sign text key pub := by
    rw [decide_eq_true_iff, Prod.mk.injEq]
    exact ⟨fun h => h.2.symm, fun h => ⟨rfl, h.symm⟩⟩

/-- A token is what it was signed with. -/
structure PlainToken where
  role : String
  fid : FamilyId
  key : Option Char
  opts : SignOptions
  signedAt : ℕ

def PlainToken.payload (t : PlainToken) : Payload :=
  ⟨some t.role, some t.fid, some t.opts.subject, some t.opts.jwtid,
    some (floorSec t.signedAt + t.opts.expiresIn)⟩

def plainJwt : JsonWebToken lastCharCrypto where
  Token := PlainToken
  sign := PlainToken.mk
  verify t getKey vopts now' :=
    if getKey ⟨t.opts.algorithm, some t.opts.keyid⟩ = some t.key ∧
        t.opts.algorithm ∈ vopts.algorithms ∧ t.opts.issuer = vopts.issuer ∧
        t.opts.audience = vopts.audience ∧ floorSec now' < floorSec t.signedAt + t.opts.expiresIn
    then some t.payload else none
  verify_sign role fid key opts now getKey vopts now' payload := by
    constructor
    · intro h
      split at h
      · next hcond =>
          obtain ⟨h1, h2, h3, h4, h5⟩ := hcond
          exact ⟨h1, h2, h3, h4, h5, (Option.some.inj h).symm⟩
      · cases h
    · rintro ⟨h1, h2, h3, h4, h5, rfl⟩
      exact if_pos ⟨h1, h2, h3, h4, h5⟩

/-- The PEM text ends in A. -/
def oldKey : List Char := "LS0tLS1CRUdJTiBB".toList

/-- The PEM text ends in B. -/
def newKey : List Char := "LS0tLS1CRUdJTiBC".toList

def oldEnv : Env
  | "JWT_PRIVATE_KEY" | "JWT_PUBLIC_KEY" => some oldKey
  | "JWT_KID" => some "k1".toList
  | "REFRESH_TOKEN_PEPPER" => some "pepper".toList
  | _ => none

/-- The old key is kept. -/
def newEnv : Env
  | "JWT_PRIVATE_KEY" | "JWT_PUBLIC_KEY" => some newKey
  | "JWT_KID" => some "k2".toList
  | "REFRESH_TOKEN_PEPPER" => some "pepper".toList
  | "JWT_PUBLIC_KEYS" => some "\x7b\"k1\":\"LS0tLS1CRUdJTiBB\"\x7d".toList
  | _ => none

theorem oldEnv_loads : ∃ cfg, loadAuthConfig lastCharCrypto Doubles.unrounded oldEnv = .ok cfg ∧
    cfg.privateKey = some 'A' := ⟨_, rfl, rfl⟩

/-- The new environment of the concrete rollout loads. -/
theorem newEnv_loads :
    ∃ cfg, loadAuthConfig lastCharCrypto Doubles.unrounded newEnv = .ok cfg := by
  have hok : (loadAuthConfig lastCharCrypto Doubles.unrounded newEnv).isOk = true := by
    decide +kernel
  cases hload : loadAuthConfig lastCharCrypto Doubles.unrounded newEnv with
  | ok cfg => exact ⟨cfg, rfl⟩
  | error e =>
      rw [hload] at hok
      cases hok

/-- The new environment lists the old key under its own name. -/
theorem newEnv_overlap : ∃ old, overlapKeys lastCharCrypto Doubles.unrounded newEnv = .ok old ∧
    old.get "k1".toList = some (some 'A') := by
  have hget : ((overlapKeys lastCharCrypto Doubles.unrounded newEnv).toOption.bind fun old =>
      old.get "k1".toList) = some (some 'A') := by
    decide +kernel
  cases hload : overlapKeys lastCharCrypto Doubles.unrounded newEnv with
  | ok old =>
      rw [hload] at hget
      exact ⟨old, rfl, hget⟩
  | error e =>
      rw [hload] at hget
      cases hget

/-- A token of the old process is accepted by the new one, which lists the old key. -/
theorem accepted_iff_overlap : ∃ signer cfg : AuthConfig lastCharCrypto,
    loadAuthConfig lastCharCrypto Doubles.unrounded oldEnv = .ok signer ∧
      loadAuthConfig lastCharCrypto Doubles.unrounded newEnv = .ok cfg ∧
      AccessTokens.verify plainJwt cfg 0 (AccessTokens.sign plainJwt signer 0 1 2 .buyer 3) =
        some (Auth.sign 0 1 2 .buyer 3) := by
  obtain ⟨signer, hsigner, hkey⟩ := oldEnv_loads
  obtain ⟨cfg, hcfg⟩ := newEnv_loads
  refine ⟨signer, cfg, hsigner, hcfg, ?_⟩
  apply (accepted_iff hsigner hcfg).mpr
  refine ⟨?_, by decide, rfl⟩
  have hne : ¬ newEnv.text "JWT_KID" = oldEnv.text "JWT_KID" := by decide
  rw [if_neg hne]
  change ∃ old : JsMap _ _, _ ∧ old.get "k1".toList = some signer.privateKey
  rw [hkey]
  exact newEnv_overlap

end Marketplace.Auth
