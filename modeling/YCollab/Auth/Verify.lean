import YCollab.Auth.Answer
import Mathlib.Data.List.Perm.Basic

/-!
# Verifying a token

`Verifier.Verify` of `internal/auth/auth.go`: the keys are tried in order, and the claims of the
first one that the token verifies under decide. More than one key is there for rotation: the new
one is put in front, the old one is taken away once its tokens have expired.

The JWT library is a parameter as far as tokens are decoded and signatures compared (`Jwt`); what
`ParseWithClaims` checks, and in which order, is written out. The clock is read once.
-/

namespace YCollab.Auth

open Lib0

/-! ### The library -/

/-- `Claims`: what a token says. Times are in nanoseconds. -/
structure Claims where
  subject : Bytes := []
  expiresAt : Option ℤ := none
  notBefore : Option ℤ := none
  doc : Bytes := []
  perm : Bytes := []
  own : Bytes := []
  deriving DecidableEq

/-- The JWT library. -/
structure Jwt where
  /-- The claims of a token that is well formed and names the pinned algorithm. -/
  parseUnverified : Bytes → Option Claims
  /-- Whether a token is signed with a secret. -/
  verifies : Bytes → Bytes → Bool

/-- Why `ParseWithClaims` returns no token. -/
inductive ParseErr where
  | malformed
  /-- `ErrTokenSignatureInvalid`. -/
  | signatureInvalid
  /-- `ErrTokenInvalidClaims`, joined with `ErrTokenExpired` and `ErrTokenNotValidYet`. -/
  | invalidClaims (expired notValidYet : Bool)
  deriving DecidableEq

/-- The token is past its expiry, for every clock within the leeway. -/
def Claims.expired (c : Claims) (leeway now : ℤ) : Bool :=
  c.expiresAt.any fun exp => ¬now < exp + leeway

/-- `nbf` lies ahead, by more than the leeway. -/
def Claims.notValidYet (c : Claims) (leeway now : ℤ) : Bool :=
  c.notBefore.any fun nbf => now < nbf - leeway

/-- `ParseWithClaims`: the signature is checked before the claims. -/
def Jwt.parseWithClaims (jwt : Jwt) (leeway now : ℤ) (secret token : Bytes) :
    Except ParseErr Claims :=
  match jwt.parseUnverified token with
  | none => .error .malformed
  | some claims =>
    if jwt.verifies secret token then
      if claims.expired leeway now || claims.notValidYet leeway now then
        .error (.invalidClaims (claims.expired leeway now) (claims.notValidYet leeway now))
      else .ok claims
    else .error .signatureInvalid

/-! ### The verifier -/

/-- What `Verify` grants. -/
structure TokenGrant extends Grant where
  expiresAt : Option ℤ := none
  deriving DecidableEq

/-- Why `Verify` grants nothing. The text goes to the client. -/
inductive VerifyErr where
  /-- "no token" -/
  | missingToken
  /-- "invalid token" -/
  | invalidToken
  /-- "token expired" -/
  | expired
  /-- "token is not valid for this document" -/
  | wrongDoc
  deriving DecidableEq

/-- `auth.Config`. -/
structure VerifierConfig where
  secrets : List Bytes
  leeway : ℤ := 0
  requireExpiry : Bool := false
  maxLifetime : ℤ := 0

/-- `DefaultLeeway`. -/
def defaultLeeway : ℤ := 30 * 10 ^ 9

/-- A `Verifier`: it has a key, and no key can be guessed. -/
structure Verifier where
  secrets : List Bytes
  leeway : ℤ
  requireExpiry : Bool
  maxLifetime : ℤ
  secrets_ne_nil : secrets ≠ []
  le_length : ∀ s ∈ secrets, 32 ≤ s.length

/-- Why there is no verifier. -/
inductive VerifierErr where
  /-- "auth: a signing secret is %d bytes; at least 32 are needed for HS256" -/
  | shortSecret (length : ℕ)
  /-- "auth: no signing secret" -/
  | noSecret

/-- `NewVerifier`: empty secrets are skipped. -/
def newVerifier (cfg : VerifierConfig) : Except VerifierErr Verifier :=
  let secrets := cfg.secrets.filter (· ≠ [])
  match hshort : secrets.find? (·.length < 32) with
  | some s => .error (.shortSecret s.length)
  | none =>
    if hnil : secrets = [] then .error .noSecret
    else .ok
      { secrets
        leeway := if cfg.leeway ≤ 0 then defaultLeeway else cfg.leeway
        requireExpiry := cfg.requireExpiry
        maxLifetime := cfg.maxLifetime
        secrets_ne_nil := hnil
        le_length := by simpa using List.find?_eq_none.1 hshort }

/-- `read`. -/
def permissionRead : Bytes := [0x72, 0x65, 0x61, 0x64]

/-- `write`. -/
def permissionWrite : Bytes := [0x77, 0x72, 0x69, 0x74, 0x65]

/-- `Time.Sub`, which saturates. -/
def timeSub (t u : ℤ) : ℤ := max (-2 ^ 63) (min (2 ^ 63 - 1) (t - u))

variable (jwt : Jwt)

namespace Verifier

variable (v : Verifier)

/-- The loop of `Verify`: the claims under the first key that gives any, or the error of the last
key. -/
def tryKeys (now : ℤ) (token : Bytes) : List Bytes → Option ParseErr →
    Except (Option ParseErr) Claims
  | [], lastErr => .error lastErr
  | secret :: secrets, _ =>
    match jwt.parseWithClaims v.leeway now secret token with
    | .error err => tryKeys now token secrets (some err)
    | .ok claims => .ok claims

/-- What the client is told about the last error. -/
def tell : Option ParseErr → VerifyErr
  | some (.invalidClaims expired notValidYet) =>
    if expired ∨ notValidYet then .expired else .invalidToken
  | _ => .invalidToken

/-- What verified claims grant on `doc`. -/
def judge (now : ℤ) (doc : Bytes) (claims : Claims) : Except VerifyErr TokenGrant :=
  let lasting := claims.expiresAt.elim v.requireExpiry fun expiry =>
    v.maxLifetime > 0 ∧ timeSub expiry now > (v.maxLifetime + v.leeway).bmod (2 ^ 64)
  let perm := if claims.perm = [] then permissionRead else claims.perm
  if claims.doc = [] then .error .invalidToken
  else if claims.doc ≠ doc then .error .wrongDoc
  else if lasting then .error .invalidToken
  else if perm ≠ permissionRead ∧ perm ≠ permissionWrite then .error .invalidToken
  else .ok
    { subject := claims.subject
      doc := claims.doc
      owner := claims.own
      write := perm = permissionWrite
      expiresAt := claims.expiresAt }

/-- `Verify`, at the time `now`. -/
def verify (now : ℤ) (token doc : Bytes) : Except VerifyErr TokenGrant :=
  if token = [] then .error .missingToken
  else
    match v.tryKeys jwt now token v.secrets none with
    | .error lastErr => .error (tell lastErr)
    | .ok claims => v.judge now doc claims

/-! ### What the keys make of a token -/

variable {jwt} {v} {now : ℤ} {token doc : Bytes} {secrets : List Bytes} {claims : Claims}

/-- The claims of the token are not within their times. -/
def Untimely (v : Verifier) (now : ℤ) (claims : Claims) : Prop :=
  claims.expired v.leeway now ∨ claims.notValidYet v.leeway now

theorem parse_of_not_verifies (leeway now : ℤ) {secret : Bytes}
    (h : jwt.verifies secret token = false) :
    ∃ err, jwt.parseWithClaims leeway now secret token = .error err ∧
      (err = .malformed ∨ err = .signatureInvalid) := by
  unfold Jwt.parseWithClaims
  split
  · exact ⟨_, rfl, .inl rfl⟩
  · rw [h]
    exact ⟨_, rfl, .inr rfl⟩

theorem parse_untimely {secret : Bytes} (hclaims : jwt.parseUnverified token = some claims)
    (hverifies : jwt.verifies secret token = true) (huntimely : v.Untimely now claims) :
    ∃ err, jwt.parseWithClaims v.leeway now secret token = .error err ∧
      tell (some err) = .expired := by
  unfold Jwt.parseWithClaims
  rw [hclaims]
  simp only [hverifies, if_true]
  rw [if_pos (by simpa [Untimely] using huntimely)]
  exact ⟨_, rfl, if_pos huntimely⟩

theorem parse_timely {secret : Bytes} (hclaims : jwt.parseUnverified token = some claims)
    (hverifies : jwt.verifies secret token = true) (htimely : ¬v.Untimely now claims) :
    jwt.parseWithClaims v.leeway now secret token = .ok claims := by
  unfold Jwt.parseWithClaims
  rw [hclaims]
  simp only [hverifies, if_true]
  rw [if_neg (by simpa [Untimely] using htimely)]

theorem tryKeys_unsigned (h : ∀ s ∈ secrets, jwt.verifies s token = false)
    {lastErr : Option ParseErr} (hlast : tell lastErr = .invalidToken) :
    ∃ err, v.tryKeys jwt now token secrets lastErr = .error err ∧ tell err = .invalidToken := by
  induction secrets generalizing lastErr with
  | nil => exact ⟨lastErr, rfl, hlast⟩
  | cons s secrets ih =>
    obtain ⟨err, hparse, herr⟩ := parse_of_not_verifies v.leeway now (h s (by simp))
    unfold tryKeys
    rw [hparse]
    refine ih (fun s' hs' => h s' (by simp [hs'])) ?_
    rcases herr with rfl | rfl <;> rfl

theorem tryKeys_malformed (h : jwt.parseUnverified token = none) {lastErr : Option ParseErr}
    (hlast : tell lastErr = .invalidToken) :
    ∃ err, v.tryKeys jwt now token secrets lastErr = .error err ∧ tell err = .invalidToken := by
  induction secrets generalizing lastErr with
  | nil => exact ⟨lastErr, rfl, hlast⟩
  | cons s secrets ih =>
    have hparse : jwt.parseWithClaims v.leeway now s token = .error .malformed := by
      simp [Jwt.parseWithClaims, h]
    unfold tryKeys
    rw [hparse]
    exact ih rfl

theorem tryKeys_timely (hclaims : jwt.parseUnverified token = some claims)
    (htimely : ¬v.Untimely now claims) (h : ∃ s ∈ secrets, jwt.verifies s token = true)
    (lastErr : Option ParseErr) : v.tryKeys jwt now token secrets lastErr = .ok claims := by
  induction secrets generalizing lastErr with
  | nil => simp at h
  | cons s secrets ih =>
    unfold tryKeys
    cases hs : jwt.verifies s token with
    | true => rw [parse_timely hclaims hs htimely]
    | false =>
      obtain ⟨err, hparse, -⟩ := parse_of_not_verifies v.leeway now hs
      rw [hparse]
      refine ih ?_ _
      obtain ⟨s', hs', hverifies⟩ := h
      rcases List.mem_cons.1 hs' with rfl | hs'
      · rw [hs] at hverifies
        cases hverifies
      · exact ⟨s', hs', hverifies⟩

/-- No key accepts a token that is not within its times, so the last key decides. -/
theorem tryKeys_untimely (hclaims : jwt.parseUnverified token = some claims)
    (huntimely : v.Untimely now claims) (secrets : List Bytes) (last : Bytes)
    (lastErr : Option ParseErr) :
    ∃ err, v.tryKeys jwt now token (secrets ++ [last]) lastErr = .error err ∧
      tell err = if jwt.verifies last token then .expired else .invalidToken := by
  induction secrets generalizing lastErr with
  | nil =>
    simp only [List.nil_append, tryKeys]
    cases hs : jwt.verifies last token with
    | true =>
      obtain ⟨err, hparse, htell⟩ := parse_untimely hclaims hs huntimely
      exact ⟨some err, by rw [hparse], htell⟩
    | false =>
      obtain ⟨err, hparse, herr⟩ := parse_of_not_verifies v.leeway now hs
      refine ⟨some err, by rw [hparse], ?_⟩
      rcases herr with rfl | rfl <;> rfl
  | cons s secrets ih =>
    have hparse : ∃ err, jwt.parseWithClaims v.leeway now s token = .error err := by
      cases hs : jwt.verifies s token with
      | true => exact (parse_untimely hclaims hs huntimely).imp fun _ h => h.1
      | false => exact (parse_of_not_verifies _ _ hs).imp fun _ h => h.1
    obtain ⟨err, hparse⟩ := hparse
    simp only [List.cons_append, tryKeys, hparse]
    exact ih _

/-! ### Rotating keys -/

/-- `v'` is `v` with its keys in another order and with further keys, none of which signed the
token. -/
structure Rotated (jwt : Jwt) (token : Bytes) (v v' : Verifier) : Prop where
  leeway : v'.leeway = v.leeway
  requireExpiry : v'.requireExpiry = v.requireExpiry
  maxLifetime : v'.maxLifetime = v.maxLifetime
  secrets : ∃ extra, (∀ s ∈ extra, jwt.verifies s token = false) ∧
    v'.secrets.Perm (v.secrets ++ extra)

theorem Rotated.judge {v' : Verifier} (h : Rotated jwt token v v') (now : ℤ) (doc : Bytes)
    (claims : Claims) : v'.judge now doc claims = v.judge now doc claims := by
  unfold Verifier.judge
  rw [h.leeway, h.requireExpiry, h.maxLifetime]

theorem Rotated.signed_iff {v' : Verifier} (h : Rotated jwt token v v') :
    (∃ s ∈ v'.secrets, jwt.verifies s token = true) ↔
      ∃ s ∈ v.secrets, jwt.verifies s token = true := by
  obtain ⟨extra, hextra, hperm⟩ := h.secrets
  constructor
  · rintro ⟨s, hs, hverifies⟩
    rcases List.mem_append.1 (hperm.mem_iff.1 hs) with hs | hs
    · exact ⟨s, hs, hverifies⟩
    · rw [hextra s hs] at hverifies
      cases hverifies
  · rintro ⟨s, hs, hverifies⟩
    exact ⟨s, hperm.mem_iff.2 (List.mem_append_left _ hs), hverifies⟩

/-- The token is missing, or signed with none of the keys, or within its times. -/
def Settled (jwt : Jwt) (v : Verifier) (now : ℤ) (token : Bytes) : Prop :=
  token = [] ∨ (∀ s ∈ v.secrets, jwt.verifies s token = false) ∨
    ∀ claims, jwt.parseUnverified token = some claims → ¬v.Untimely now claims

theorem verify_of_error {err : Option ParseErr} (hne : token ≠ [])
    (h : v.tryKeys jwt now token v.secrets none = .error err) :
    v.verify jwt now token doc = .error (tell err) := by
  unfold verify
  rw [if_neg hne, h]

/-- What a settled token is told, in terms that rotation keeps. -/
theorem Settled.verify_eq (h : v.Settled jwt now token) (doc : Bytes) :
    v.verify jwt now token doc =
      if token = [] then .error .missingToken
      else
        match jwt.parseUnverified token with
        | none => .error .invalidToken
        | some claims =>
          if ∃ s ∈ v.secrets, jwt.verifies s token = true then v.judge now doc claims
          else .error .invalidToken := by
  by_cases hne : token = []
  · simp [verify, hne]
  rw [if_neg hne]
  cases hclaims : jwt.parseUnverified token with
  | none =>
    obtain ⟨err, hkeys, htell⟩ := tryKeys_malformed (v := v) hclaims (show tell none = _ from rfl)
    rw [verify_of_error hne hkeys, htell]
  | some claims =>
    simp only
    split
    next hsigned =>
      have htimely : ¬v.Untimely now claims := by
        rcases h with h | h | h
        · exact absurd h hne
        · obtain ⟨s, hs, hverifies⟩ := hsigned
          rw [h s hs] at hverifies
          cases hverifies
        · exact h claims hclaims
      unfold verify
      rw [if_neg hne, tryKeys_timely hclaims htimely hsigned]
    next hunsigned =>
      have hnone : ∀ s ∈ v.secrets, jwt.verifies s token = false := fun s hs => by
        by_contra hs'
        exact hunsigned ⟨s, hs, by simpa using hs'⟩
      obtain ⟨err, hkeys, htell⟩ := tryKeys_unsigned (v := v) hnone (show tell none = _ from rfl)
      rw [verify_of_error hne hkeys, htell]

theorem Rotated.settled {v' : Verifier} (h : Rotated jwt token v v')
    (hs : v.Settled jwt now token) : v'.Settled jwt now token := by
  rcases hs with hs | hs | hs
  · exact .inl hs
  · refine .inr (.inl fun s hmem => ?_)
    by_contra hverifies
    obtain ⟨s', hs', hverifies'⟩ := h.signed_iff.1 ⟨s, hmem, by simpa using hverifies⟩
    rw [hs s' hs'] at hverifies'
    cases hverifies'
  · refine .inr (.inr fun claims hclaims => ?_)
    rw [Untimely, h.leeway]
    exact hs claims hclaims

/-- The verifier with the key `s` at the end. -/
def withLast (v : Verifier) (secrets : List Bytes) (s : Bytes)
    (hsecrets : ∀ s' ∈ secrets, 32 ≤ s'.length) (hs : 32 ≤ s.length) : Verifier :=
  { v with
    secrets := secrets ++ [s]
    secrets_ne_nil := by simp
    le_length := fun s' hs' => by
      rcases List.mem_append.1 hs' with hs' | hs'
      · exact hsecrets s' hs'
      · rwa [List.mem_singleton.1 hs'] }

theorem withLast_verify {hsecrets : ∀ s' ∈ secrets, 32 ≤ s'.length} {s : Bytes}
    {hs : 32 ≤ s.length} (hne : token ≠ []) (hclaims : jwt.parseUnverified token = some claims)
    (huntimely : v.Untimely now claims) :
    (v.withLast secrets s hsecrets hs).verify jwt now token doc =
      .error (if jwt.verifies s token then .expired else .invalidToken) := by
  obtain ⟨err, hkeys, htell⟩ :=
    tryKeys_untimely (v := v.withLast secrets s hsecrets hs) hclaims huntimely secrets s none
  rw [verify_of_error hne hkeys, htell]

/-- **When rotating keys changes nothing**: exactly if the token is missing, signed with none of the
keys, or within its times. A signed token that has expired is called expired if a key it was
signed with is the last one, and invalid otherwise. How many keys signed the token does not matter;
some key that is long enough has to be one that did not. -/
theorem verify_rotated_iff
    (hother : ∃ s : Bytes, 32 ≤ s.length ∧ jwt.verifies s token = false) :
    (∀ v', Rotated jwt token v v' → v'.verify jwt now token doc = v.verify jwt now token doc) ↔
      v.Settled jwt now token := by
  constructor
  · intro hall
    by_contra hunsettled
    simp only [Settled, not_or, not_forall, not_not] at hunsettled
    obtain ⟨hne, ⟨s, hs, hverifies⟩, claims, hclaims, huntimely⟩ := hunsettled
    have hverifies : jwt.verifies s token = true := by simpa using hverifies
    obtain ⟨s', hlen, hfalse⟩ := hother
    -- the signing key last, and a key that did not sign last
    have hlast := hall (v.withLast (v.secrets.erase s) s
      (fun t ht => v.le_length t (List.mem_of_mem_erase ht)) (v.le_length s hs))
      ⟨rfl, rfl, rfl, [], by simp, by
        simpa [withLast] using (List.perm_append_singleton ..).trans
          (List.perm_cons_erase hs).symm⟩
    have hextra := hall (v.withLast v.secrets s' v.le_length hlen)
      ⟨rfl, rfl, rfl, [s'], by simpa using hfalse, .refl _⟩
    rw [withLast_verify hne hclaims huntimely, hverifies] at hlast
    rw [withLast_verify hne hclaims huntimely, hfalse, ← hlast] at hextra
    cases hextra
  · intro hsettled v' hrotated
    rw [hsettled.verify_eq, (hrotated.settled hsettled).verify_eq]
    simp only [hrotated.judge, hrotated.signed_iff]

end Verifier

namespace Sample

/-- The key before the rotation. -/
def oldKey : Bytes := List.replicate 32 0

/-- The key after it. -/
def newKey : Bytes := List.replicate 32 1

/-- The library on one token, which is signed with the new key and expires at time zero. -/
def oneToken : Jwt where
  parseUnverified token := if token = [1] then some { doc := [100], expiresAt := some 0 } else none
  verifies secret token := secret = newKey ∧ token = [1]

/-- Only the new key. -/
def fresh : Verifier where
  secrets := [newKey]
  leeway := defaultLeeway
  requireExpiry := true
  maxLifetime := 0
  secrets_ne_nil := by decide
  le_length := by decide

/-- The new key in front of the old one. -/
def rotating : Verifier where
  secrets := [newKey, oldKey]
  leeway := defaultLeeway
  requireExpiry := true
  maxLifetime := 0
  secrets_ne_nil := by decide
  le_length := by decide

end Sample

namespace Verifier

open Sample

/-- While the token lasts, it does not matter that the old key is still there. -/
theorem verify_rotated_iff_witness :
    rotating.verify oneToken 0 [1] [100] = fresh.verify oneToken 0 [1] [100] := by
  refine (verify_rotated_iff (v := fresh) ⟨oldKey, by decide, by decide⟩).2 (.inr (.inr ?_))
    rotating ⟨rfl, rfl, rfl, [oldKey], by decide, .refl _⟩
  intro claims hclaims
  obtain rfl : claims = { doc := [100], expiresAt := some 0 } :=
    Option.some.inj (hclaims.symm.trans rfl)
  simp [Untimely, Claims.expired, Claims.notValidYet, fresh, defaultLeeway]

/-- An hour later the token has expired. Its holder is told so as long as the new key is the only one;
while the old key is still there, the token is called invalid. -/
theorem expired_is_invalid_while_rotating :
    Rotated oneToken [1] fresh rotating ∧
    fresh.verify oneToken (3600 * 10 ^ 9) [1] [100] = .error .expired ∧
    rotating.verify oneToken (3600 * 10 ^ 9) [1] [100] = .error .invalidToken :=
  ⟨⟨rfl, rfl, rfl, [oldKey], by decide, .refl _⟩, by decide, by decide⟩

end Verifier

end YCollab.Auth
