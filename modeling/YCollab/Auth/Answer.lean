import Mathlib.Algebra.Order.Ring.Int
import YCollab.Lib0.Utf16

/-!
# Asking an endpoint

`Callback.ask` of `internal/auth/callback.go`: what becomes of the endpoint's response to a
question. `encoding/json` is a parameter (`Json`) as far as it reads responses; of what it writes
only the strings matter here, and those it makes valid UTF-8 (`coerce`).
-/

namespace YCollab.Auth

open Lib0

/-- What the callback is asked about. -/
structure Request where
  document : Bytes
  token : Bytes
  ip : Bytes := []
  origin : Bytes := []
  deriving DecidableEq

/-- What a connection may do. -/
structure Grant where
  subject : Bytes := []
  doc : Bytes := []
  owner : Bytes := []
  write : Bool := false
  deriving DecidableEq

/-- Why there is no grant. -/
inductive Err where
  /-- `ErrUnavailable`. -/
  | unavailable
  /-- `ErrDenied`, with the endpoint's reason if it gave one. -/
  | denied (reason : Bytes)
  /-- `context.Canceled`. -/
  | canceled
  /-- `context.DeadlineExceeded`. -/
  | deadlineExceeded
  deriving DecidableEq

/-- `CallbackConfig`, as far as decisions depend on it. Durations are in nanoseconds. -/
structure Config where
  cacheTTL : ℤ
  cacheSize : ℕ := 4096
  failOpen : Bool := false

/-- What the endpoint may answer in JSON. `allow` may be missing; `ttl` is in seconds. -/
structure CallbackResponse where
  allow : Option Bool
  write : Bool := false
  subject : Bytes := []
  owner : Bytes := []
  reason : Bytes := []
  ttl : ℤ := 0

/-- `encoding/json`, as far as responses are read with it. -/
structure Json where
  /-- `json.Unmarshal` into a `callbackResponse`. -/
  unmarshal : Bytes → Option CallbackResponse
  /-- `json.Valid`. -/
  valid : Bytes → Bool

/-- An HTTP response. -/
structure Response where
  status : ℕ
  body : Bytes
  deriving DecidableEq

/-- One round trip's outcome. -/
structure Answer where
  grant : Grant := {}
  err : Option Err := none
  /-- The lifetime the endpoint asked for, zero if it asked for none. -/
  ttl : ℤ := 0
  /-- False for anything that is not a decision about this token. -/
  cacheable : Bool := false
  deriving DecidableEq

/-- How much of a response is read. -/
def maxCallbackBody : ℕ := 8 * 2 ^ 10

/-- How much text is taken from the endpoint. -/
def maxReason : ℕ := 200

/-! ### Text -/

/-- The byte that `range` could not decode. -/
def isInvalid (r : Rune) : Bool := r.val = 0xFFFD && r.bytes.length = 1

/-- What `encoding/json` writes for a string: every byte that is not part of valid UTF-8 becomes
the replacement character. -/
def coerce (s : Bytes) : Bytes :=
  (runes s).flatMap fun r => if isInvalid r then [0xEF, 0xBF, 0xBD] else r.bytes

/-- `unicode.IsControl`. -/
def isControl (v : ℕ) : Bool := v < 0x20 || (0x7F ≤ v && v < 0xA0)

/-- `unicode.IsSpace`. -/
def isSpace (v : ℕ) : Bool :=
  (9 ≤ v && v ≤ 13) || v = 0x20 || v = 0x85 || v = 0xA0 || v = 0x1680 ||
    (0x2000 ≤ v && v ≤ 0x200A) || v = 0x2028 || v = 0x2029 || v = 0x202F || v = 0x205F ||
    v = 0x3000

/-- `sanitize`: text from the endpoint, cut off, valid and without control characters. -/
def sanitize (s : Bytes) : Bytes :=
  let valid := (runes (s.take maxReason)).filter (! isInvalid ·)
  let plain := valid.map fun r => if isControl r.val then ⟨0x20, [0x20]⟩ else r
  let trimmed := ((plain.dropWhile (isSpace ·.val)).reverse.dropWhile (isSpace ·.val)).reverse
  trimmed.flatMap Rune.bytes

/-- `denied`. -/
def denied (reason : Bytes) : Err := .denied (sanitize reason)

/-- `reasonFrom`: an explanation in a refusal, which may be JSON or anything else. -/
def reasonFrom (json : Json) (payload : Bytes) : Bytes :=
  let other := if json.valid payload then [] else payload
  match json.unmarshal payload with
  | some answer => if answer.reason = [] then other else answer.reason
  | none => other

/-! ### Answers -/

variable (cfg : Config) (json : Json)

/-- `unavailable`: the fail-open policy. -/
def unavailable : Answer :=
  if cfg.failOpen then { grant := { write := true } } else { err := some .unavailable }

/-- `time.Duration(decoded.TTL) * time.Second`. -/
def ttlOf (seconds : ℤ) : ℤ := (seconds * 10 ^ 9).bmod (2 ^ 64)

/-- What a response with status 200 that could be read means. -/
def decision (req : Request) (payload : Bytes) : Answer :=
  match json.unmarshal payload with
  | none => { err := some (denied []) }
  | some decoded =>
    match decoded.allow with
    | none => { err := some (denied []) }
    | some false =>
      { err := some (denied decoded.reason), ttl := ttlOf decoded.ttl, cacheable := true }
    | some true =>
      { grant :=
          { subject := sanitize decoded.subject
            doc := req.document
            owner := sanitize decoded.owner
            write := decoded.write }
        ttl := ttlOf decoded.ttl
        cacheable := true }

/-- `ask`, from the response on. Reading the body may have failed after `payload`. -/
def answerOf (req : Request) (status : ℕ) (payload : Bytes) (readErr : Bool) : Answer :=
  if status = 200 then
    if readErr then unavailable cfg else decision json req payload
  else if status = 401 ∨ status = 403 then
    { err := some (denied (reasonFrom json payload)), cacheable := true }
  else if status = 408 ∨ status = 429 ∨ 500 ≤ status then unavailable cfg
  else { err := some (denied []) }

variable {cfg json}

theorem unavailable_err (hclosed : cfg.failOpen = false) :
    (unavailable cfg).err = some .unavailable := by
  simp [unavailable, hclosed]

theorem unavailable_cacheable : (unavailable cfg).cacheable = false := by
  unfold unavailable
  split <;> rfl

/-- **A grant is the decision of a complete response.** -/
theorem answerOf_grant (hclosed : cfg.failOpen = false) {req : Request} {status : ℕ}
    {payload : Bytes} {readErr : Bool}
    (h : (answerOf cfg json req status payload readErr).err = none) :
    status = 200 ∧ readErr = false ∧
      answerOf cfg json req status payload readErr = decision json req payload := by
  unfold answerOf at h ⊢
  split at h
  · cases readErr with
    | true => simp [unavailable_err hclosed] at h
    | false => simp_all
  · split at h
    · simp at h
    · split at h
      · simp [unavailable_err hclosed] at h
      · simp at h

end YCollab.Auth
