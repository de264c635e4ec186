import YCollab.Lib0.Decoder

/-!
# Values in a stream

A buffer is written by one call after another and read back by the matching reads in the same
order. Every read consumes what its write has appended, so the values come back and the input ends
where the buffer does (`stream_round_trip`). A number beyond `MaxSafeInteger` ends the buffer: its
write and all later ones append nothing, and the error stays.
-/

namespace YCollab.Lib0

/-- The argument of a write. -/
inductive Value where
  | varUint (v : ℕ)
  | varInt (v : ℤ)
  | varString (s : Bytes)
  | varUint8Array (b : Bytes)
  deriving DecidableEq, Repr

/-- Which write, and which read, a value is for. -/
inductive Value.Kind where
  | varUint
  | varInt
  | varString
  | varUint8Array
  deriving DecidableEq, Repr

namespace Value

/-- The reader for a value. -/
def kind : Value → Kind
  | varUint _ => .varUint
  | varInt _ => .varInt
  | varString _ => .varString
  | varUint8Array _ => .varUint8Array

/-- The call that writes the value. -/
def write (e : Encoder) : Value → Encoder
  | varUint v => e.writeVarUint v
  | varInt v => e.writeVarInt v
  | varString s => e.writeVarString s
  | varUint8Array b => e.writeVarUint8Array b

/-- The integer is safe. A length is written as an integer too, but there is no slice that is too
long for it. -/
def InRange : Value → Prop
  | varUint v => v ≤ maxSafeInteger
  | varInt v => -maxSafeInteger ≤ v ∧ v ≤ maxSafeInteger
  | varString s => s.length ≤ maxSafeInteger
  | varUint8Array b => b.length ≤ maxSafeInteger

instance : DecidablePred InRange
  | varUint _ | varString _ | varUint8Array _ => inferInstanceAs (Decidable (_ ≤ _))
  | varInt _ => inferInstanceAs (Decidable (_ ∧ _))

/-- What a write in range appends. -/
def bytes : Value → Bytes
  | varUint v => Encoder.varUint v
  | varInt v => Encoder.varInt v
  | varString s => Encoder.varUint s.length ++ s
  | varUint8Array b => Encoder.varUint b.length ++ b

end Value

/-- The read that matches. -/
def Value.Kind.read : Value.Kind → Read Value
  | .varUint => do pure (.varUint (← readVarUint))
  | .varInt => do pure (.varInt (← readVarInt))
  | .varString => do pure (.varString (← readVarString))
  | .varUint8Array => do pure (.varUint8Array (← readVarUint8Array))

/-- One write after the other. -/
def Encoder.writeAll (e : Encoder) (l : List Value) : Encoder := l.foldl Value.write e

/-- One read after the other. -/
def readAll : List Value.Kind → Read (List Value)
  | [] => pure []
  | k :: ks => do
    let v ← k.read
    let l ← readAll ks
    pure (v :: l)

variable {v : Value} {l : List Value}

namespace Value

theorem write_writes (h : v.InRange) : Writes (write · v) v.bytes := by
  cases v with
  | varUint v => exact writeVarUint_writes h
  | varInt v => exact writeVarInt_writes h.1 h.2
  | varString s => exact writeVarString_writes h
  | varUint8Array b => exact writeVarUint8Array_writes h

theorem write_appends (v : Value) : Appends (write · v) := by
  cases v with
  | varUint v => exact writeVarUint_appends v
  | varInt v => exact writeVarInt_appends v
  | varString s => exact writeVarString_appends s
  | varUint8Array b => exact writeVarUint8Array_appends b

theorem write_of_not_inRange (h : ¬v.InRange) {e : Encoder} (he : e.err = none) :
    write e v = { e with err := some .integerOutOfRange } := by
  obtain ⟨buf, x⟩ := e
  obtain rfl : x = none := he
  have hlen : ∀ n, ¬n ≤ maxSafeInteger →
      Encoder.writeVarUint ⟨buf, none⟩ n = ⟨buf, some .integerOutOfRange⟩ := by
    intro n hn
    simp [Encoder.writeVarUint, Nat.not_le.1 hn, Encoder.fail]
  cases v with
  | varUint v => exact hlen v h
  | varInt v =>
    have hout : v < -maxSafeInteger ∨ v > maxSafeInteger := by
      simp only [InRange] at h
      omega
    simp [write, Encoder.writeVarInt, hout, Encoder.fail]
  | varString s =>
    simp [write, Encoder.writeVarString, Encoder.writeVarUint8Array, hlen _ h, Encoder.writeBytes]
  | varUint8Array b =>
    simp [write, Encoder.writeVarUint8Array, hlen _ h, Encoder.writeBytes]

theorem read_reads (h : v.InRange) : Reads v.kind.read v.bytes v := by
  cases v with
  | varUint v => exact (readVarUint_reads h).map
  | varInt v => exact (readVarInt_reads h.1 h.2).map
  | varString s => exact (readVarString_reads h).map
  | varUint8Array b => exact (readVarUint8Array_reads h).map

end Value

theorem readAll_reads (h : ∀ v ∈ l, v.InRange) :
    Reads (readAll (l.map Value.kind)) (l.flatMap Value.bytes) l := by
  induction l with
  | nil => exact .pure []
  | cons v l ih =>
    have hv := Value.read_reads (h v (List.mem_cons_self ..))
    have hl := ih fun u hu => h u (List.mem_cons_of_mem _ hu)
    exact hv.bind hl.map

theorem writeAll_of_inRange (h : ∀ v ∈ l, v.InRange) :
    Encoder.writeAll {} l = { buf := l.flatMap Value.bytes } :=
  foldl_writes (fun v hv => Value.write_writes (h v hv)) {} rfl

/-- **Values round-trip in a stream**: the matching reads return what was written and end where the
buffer ends, and from the first integer on that is out of range nothing is appended. -/
theorem stream_round_trip (l : List Value) :
    ((∀ v ∈ l, v.InRange) → (Encoder.writeAll {} l).err = none ∧
      readAll (l.map Value.kind) (Encoder.writeAll {} l).buf = .ok (l, [])) ∧
    ∀ pre v post, l = pre ++ v :: post → (∀ u ∈ pre, u.InRange) → ¬v.InRange →
      (Encoder.writeAll {} l).buf = (Encoder.writeAll {} pre).buf ∧
      (Encoder.writeAll {} l).err = some .integerOutOfRange := by
  constructor
  · intro h
    rw [writeAll_of_inRange h]
    exact ⟨rfl, (readAll_reads h).run⟩
  · rintro pre v post rfl hpre hv
    have hstop : Value.write (Encoder.writeAll {} pre) v =
        { Encoder.writeAll {} pre with err := some .integerOutOfRange } :=
      Value.write_of_not_inRange hv (by rw [writeAll_of_inRange hpre])
    -- from here on the error keeps every write from doing anything
    have hall : Encoder.writeAll {} (pre ++ v :: post) =
        { Encoder.writeAll {} pre with err := some .integerOutOfRange } := by
      have hsplit : Encoder.writeAll {} (pre ++ v :: post) =
          (Value.write (Encoder.writeAll {} pre) v).writeAll post := List.foldl_append
      rw [hsplit, hstop]
      exact (foldl_appends Value.write_appends post).sticky _ (by simp)
    rw [hall]
    exact ⟨rfl, rfl⟩

end YCollab.Lib0
