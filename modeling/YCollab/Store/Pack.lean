import YCollab.Lib0.Encoder

/-!
# Stored bytes

`internal/pack`: snapshots and versions are compressed before they are stored, unless that does
not make them smaller, and a column beside the bytes says which. `unpack_pack` is the round trip.

`compress/flate` is not part of the repository; it is a parameter (`Flate`) that reads back what it
has written.
-/

namespace YCollab.Store

/-- `compress/flate`. -/
structure Flate where
  compress : Bytes → Bytes
  /-- Nothing is read from bytes that are not a deflate stream. -/
  decompress : Bytes → Option Bytes
  decompress_compress : ∀ b, decompress (compress b) = some b

/-- Nothing is made smaller, so everything is stored as it is. -/
def Flate.verbatim : Flate := ⟨fun b => b, some, fun _ => rfl⟩

/-- `Codec`, as the column has it: a database may hold numbers that this binary does not know. -/
abbrev Codec := ℤ

/-- The bytes exactly as they were given. -/
def Codec.raw : Codec := 0

/-- RFC 1951. -/
def Codec.deflate : Codec := 1

/-- Why bytes cannot be unpacked. -/
inductive UnpackErr where
  | decompress
  | unknownCodec (c : Codec)
  deriving DecidableEq

/-- The payload below which compression is not attempted. -/
def minSize : ℕ := 256

variable (flate : Flate)

/-- `Pack`. -/
def pack (b : Bytes) : Bytes × Codec :=
  if b.length < minSize then (b, .raw)
  else
    let packed := flate.compress b
    -- it falls back to the bytes as they are whenever compression did not help
    if b.length ≤ packed.length then (b, .raw) else (packed, .deflate)

/-- `Unpack`. -/
def unpack (b : Bytes) (c : Codec) : Except UnpackErr Bytes :=
  if c = .raw then .ok b
  else if c = .deflate then
    match flate.decompress b with
    | some out => .ok out
    | none => .error .decompress
  else .error (.unknownCodec c)

variable {flate}

theorem unpack_raw (b : Bytes) : unpack flate b .raw = .ok b := rfl

theorem unpack_compress (b : Bytes) : unpack flate (flate.compress b) .deflate = .ok b := by
  unfold unpack
  rw [if_neg (by decide), if_pos rfl, flate.decompress_compress]

/-- **What was packed is unpacked**, under the codec that was recorded with it. -/
theorem unpack_pack (b : Bytes) : unpack flate (pack flate b).1 (pack flate b).2 = .ok b := by
  unfold pack
  split
  · exact unpack_raw b
  · simp only
    split
    · exact unpack_raw b
    · exact unpack_compress b

end YCollab.Store
