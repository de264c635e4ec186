import YCollab.Lib0.Decoder

/-!
# The frames of the client protocol

`internal/protocol/messages.go`: an outer type, then a sync message, an awareness payload or an
authorisation message. A frame has to be used up by its message (`ErrTrailingBytes`). What the
writers produce decodes to the message they were given (`decode_writeSync` and the lemmas after
it).
-/

namespace YCollab.Protocol

open Lib0

/-- One decoded frame. -/
inductive Message where
  /-- The sender's state vector; it asks for what the sender is missing. -/
  | syncStep1 (stateVector : Bytes)
  /-- The answer to a step 1. -/
  | syncStep2 (update : Bytes)
  /-- An incremental update. -/
  | update (update : Bytes)
  /-- An awareness payload, still encoded. -/
  | awareness (payload : Bytes)
  /-- A request for every awareness state. -/
  | queryAwareness
  /-- The rejection of a connection. -/
  | permissionDenied (reason : Bytes)
  deriving DecidableEq, Repr

/-- Why a frame is not a message. -/
inductive DecodeErr where
  /-- An error of `lib0`. -/
  | lib0 (x : Err)
  /-- `ErrUnknownMessageType`. -/
  | unknownMessageType (typ : ℕ)
  /-- `ErrUnknownSyncType`. -/
  | unknownSyncType (sub : ℕ)
  /-- `ErrUnknownAuthType`. -/
  | unknownAuthType (sub : ℕ)
  /-- `ErrTrailingBytes`. -/
  | trailingBytes
  deriving DecidableEq, Repr

/-- A read of the frame's decoder. -/
def reading {α : Type} (r : Read α) (b : Bytes) : Except DecodeErr (α × Bytes) :=
  match r b with
  | .ok a => .ok a
  | .error x => .error (.lib0 x)

/-- The switch of `decodeSync` over the sub-type. -/
def syncMessage (sub : ℕ) (payload : Bytes) : Except DecodeErr Message :=
  match sub with
  | 0 => .ok (.syncStep1 payload)
  | 1 => .ok (.syncStep2 payload)
  | 2 => .ok (.update payload)
  | n => .error (.unknownSyncType n)

/-- A sync message: its subtype and its payload. -/
def decodeSync (b : Bytes) : Except DecodeErr (Message × Bytes) := do
  let (sub, b) ← reading readVarUint b
  let (payload, b) ← reading readVarUint8Array b
  let msg ← syncMessage sub payload
  .ok (msg, b)

/-- An auth message, which can only refuse. -/
def decodeAuth (b : Bytes) : Except DecodeErr (Message × Bytes) := do
  let (sub, b) ← reading readVarUint b
  if sub ≠ 0 then .error (.unknownAuthType sub)
  else
    let (reason, b) ← reading readVarString b
    .ok (.permissionDenied reason, b)

/-- The switch of `Decode` over the outer type. -/
def decodeTyped (typ : ℕ) (b : Bytes) : Except DecodeErr (Message × Bytes) :=
  match typ with
  | 0 => decodeSync b
  | 1 => do
    let (payload, b) ← reading readVarUint8Array b
    .ok (.awareness payload, b)
  | 2 => decodeAuth b
  | 3 => .ok (.queryAwareness, b)
  | n => .error (.unknownMessageType n)

/-- `Decode`. -/
def decode (buf : Bytes) : Except DecodeErr Message := do
  let (typ, b) ← reading readVarUint buf
  let (msg, b) ← decodeTyped typ b
  if b.isEmpty then .ok msg else .error .trailingBytes

/-- A sync message. -/
def writeSync (sub : ℕ) (payload : Bytes) : Bytes :=
  ((({} : Encoder).writeVarUint 0).writeVarUint sub).writeVarUint8Array payload |>.buf

/-- `WriteSyncStep1`. -/
def writeSyncStep1 (stateVector : Bytes) : Bytes := writeSync 0 stateVector

/-- `WriteSyncStep2`. -/
def writeSyncStep2 (update : Bytes) : Bytes := writeSync 1 update

/-- `WriteUpdate`. -/
def writeUpdate (update : Bytes) : Bytes := writeSync 2 update

/-- `WriteAwareness`. -/
def writeAwareness (payload : Bytes) : Bytes :=
  (({} : Encoder).writeVarUint 1).writeVarUint8Array payload |>.buf

/-- `WritePermissionDenied`. -/
def writePermissionDenied (reason : Bytes) : Bytes :=
  ((({} : Encoder).writeVarUint 2).writeVarUint 0).writeVarString reason |>.buf

/-! ### Round trips -/

theorem reading_of_reads {α : Type} {r : Read α} {s : Bytes} {a : α} (h : Reads r s a)
    (rest : Bytes) : reading r (s ++ rest) = .ok (a, rest) := by
  rw [reading, h rest]

theorem reading_all {α : Type} {r : Read α} {s : Bytes} {a : α} (h : Reads r s a) :
    reading r s = .ok (a, []) := by
  rw [reading, h.run]

theorem writeSync_eq {sub : ℕ} {payload : Bytes} (hsub : sub ≤ maxSafeInteger)
    (h : payload.length ≤ maxSafeInteger) :
    writeSync sub payload = Encoder.varUint 0 ++ (Encoder.varUint sub ++
      (Encoder.varUint payload.length ++ payload)) := by
  have hw := ((writeVarUint_writes (Nat.zero_le maxSafeInteger)).comp
    (writeVarUint_writes hsub)).comp (writeVarUint8Array_writes h)
  have := congrArg Encoder.buf (hw {} rfl)
  simpa [writeSync] using this

theorem decode_writeSync {sub : ℕ} {payload : Bytes} (hsub : sub ≤ maxSafeInteger)
    (h : payload.length ≤ maxSafeInteger) :
    decode (writeSync sub payload) = syncMessage sub payload := by
  have h₀ := reading_of_reads (readVarUint_reads (Nat.zero_le maxSafeInteger))
    (Encoder.varUint sub ++ (Encoder.varUint payload.length ++ payload))
  have h₁ := reading_of_reads (readVarUint_reads hsub)
    (Encoder.varUint payload.length ++ payload)
  have h₂ := reading_all (readVarUint8Array_reads h)
  rw [decode, writeSync_eq hsub h, h₀]
  simp only [bind, Except.bind, decodeTyped, decodeSync, h₁, h₂]
  cases syncMessage sub payload <;> rfl

theorem length_of_decode {sub : ℕ} {payload : Bytes} {m : Message} (hsub : sub ≤ maxSafeInteger)
    (h : decode (writeSync sub payload) = .ok m) : payload.length ≤ maxSafeInteger := by
  by_contra hlen
  have hbuf : writeSync sub payload = Encoder.varUint 0 ++ Encoder.varUint sub := by
    have hw := ((writeVarUint_writes (Nat.zero_le maxSafeInteger)).comp
      (writeVarUint_writes hsub)) {} rfl
    simp only [List.nil_append] at hw
    rw [writeSync, hw]
    simp [Encoder.writeVarUint8Array, Encoder.writeVarUint, Encoder.fail, Encoder.writeBytes,
      Nat.not_le.1 hlen]
  have h₀ := reading_of_reads (readVarUint_reads (Nat.zero_le maxSafeInteger))
    (Encoder.varUint sub)
  have h₁ := reading_all (readVarUint_reads hsub)
  rw [decode, hbuf, h₀] at h
  simp only [bind, Except.bind, decodeTyped, decodeSync, h₁] at h
  cases h

theorem syncMessage_of_decode {sub : ℕ} {payload : Bytes} {m : Message}
    (hsub : sub ≤ maxSafeInteger) (h : decode (writeSync sub payload) = .ok m) :
    syncMessage sub payload = .ok m := by
  rw [← decode_writeSync hsub (length_of_decode hsub h), h]

theorem decode_writeSyncStep1 {sv : Bytes} (h : sv.length ≤ maxSafeInteger) :
    decode (writeSyncStep1 sv) = .ok (.syncStep1 sv) := decode_writeSync (by decide) h

theorem decode_writeSyncStep2 {update : Bytes} (h : update.length ≤ maxSafeInteger) :
    decode (writeSyncStep2 update) = .ok (.syncStep2 update) := decode_writeSync (by decide) h

theorem decode_writeUpdate {update : Bytes} (h : update.length ≤ maxSafeInteger) :
    decode (writeUpdate update) = .ok (.update update) := decode_writeSync (by decide) h

end YCollab.Protocol
