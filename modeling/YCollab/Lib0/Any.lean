import Mathlib.Tactic.Ring
import Mathlib.Tactic.Set
import YCollab.Lib0.Decoder

/-!
# The lib0 any format

`internal/crdt/lib0/any.go`: a one byte tag followed by a payload. `Any` has a constructor for
each Go type `ReadAny` produces; floats are kept as their IEEE 754 bits.

The nesting depth is bounded by `maxAnyDepth` on both sides, so reading and writing recurse on
the levels that are left. A value that was read can be written (`readAny_ensures`,
`writeAny_writes`) and what is written can be read again (`readAny_reads`), but not as the same
value: a float that holds a small integer comes back as an integer, and an integer beyond 31
bits as a float. `Any.norm` is the value that comes back; it is the value itself when there are
no floats and no wide integers (`Any.Plain.norm_eq`).
-/

namespace YCollab.Lib0

/-- The values of the any format, as `ReadAny` produces them. -/
inductive Any where
  | undefined
  | null
  | bool (b : Bool)
  /-- An int64, from the integer tag. -/
  | int (v : ℤ)
  | float32 (bits : UInt32)
  | float64 (bits : UInt64)
  | bigInt (bits : UInt64)
  | string (s : Bytes)
  | bytes (b : Bytes)
  | array (l : List Any)
  /-- An object with its key order preserved. -/
  | object (fields : List (Bytes × Any))

/-- `maxInt31`: a JS number is written as a varInt only within this range. -/
def maxInt31 : ℕ := 0x7FFFFFFF

/-- `maxAnyDepth` bounds the recursion on hostile input. -/
def maxAnyDepth : ℕ := 128

/-! ### Floats as bits -/

namespace Float64

/-- The sign bit. -/
def signbit (bits : ℕ) : Bool := bits / 2 ^ 63 % 2 = 1

/-- The eleven exponent bits. -/
def exponent (bits : ℕ) : ℕ := bits / 2 ^ 52 % 2 ^ 11

/-- The fifty-two mantissa bits. -/
def mantissa (bits : ℕ) : ℕ := bits % 2 ^ 52

/-- The bits are those of a NaN. -/
def isNaN (bits : ℕ) : Bool := exponent bits = 2047 ∧ mantissa bits ≠ 0

/-- The integer a float64 holds when it is integral and at most `maxInt31` in absolute value, the
test `v == math.Trunc(v) && math.Abs(v) <= maxInt31`. A finite value is `m * 2 ^ (e - 1075)`. -/
def smallInt? (bits : ℕ) : Option ℤ :=
  let m := if exponent bits = 0 then mantissa bits else 2 ^ 52 + mantissa bits
  let e := if exponent bits = 0 then 1 else exponent bits
  -- from 2^52 on every value is integral, and too large
  if e ≥ 1075 then none
  else if m % 2 ^ (1075 - e) = 0 ∧ m / 2 ^ (1075 - e) ≤ maxInt31 then
    some (if signbit bits then -(m / 2 ^ (1075 - e) : ℕ) else (m / 2 ^ (1075 - e) : ℕ))
  else none

/-- The bits of `float32(v)` when the conversion loses nothing, the test
`float64(float32(v)) == v`: infinities, and finite values with at most 24 significant bits in the
float32 range, subnormals included. -/
def float32? (bits : ℕ) : Option ℕ :=
  let s := if signbit bits then 2 ^ 31 else 0
  let exp := exponent bits
  let mant := mantissa bits
  if exp = 2047 then if mant = 0 then some (s + 255 * 2 ^ 23) else none
  else if exp = 0 then if mant = 0 then some s else none
  else if exp > 1150 then none
  else if exp ≥ 897 then
    if mant % 2 ^ 29 = 0 then some (s + (exp - 896) * 2 ^ 23 + mant / 2 ^ 29) else none
  else if (2 ^ 52 + mant) % 2 ^ (926 - exp) = 0 then some (s + (2 ^ 52 + mant) / 2 ^ (926 - exp))
  else none

/-- `float64(t)` for an int64, rounding to nearest even. -/
def ofInt (t : ℤ) : ℕ :=
  let n := t.natAbs
  let s := if t < 0 then 2 ^ 63 else 0
  if n = 0 then 0
  else if Nat.log2 n ≤ 52 then
    s + (Nat.log2 n + 1023) * 2 ^ 52 + (n * 2 ^ (52 - Nat.log2 n) - 2 ^ 52)
  else
    let shift := Nat.log2 n - 52
    let q := n / 2 ^ shift
    let r := n % 2 ^ shift
    let q := if r > 2 ^ (shift - 1) ∨ r = 2 ^ (shift - 1) ∧ q % 2 = 1 then q + 1 else q
    -- a carry out of the mantissa lands in the exponent
    s + (Nat.log2 n + 1023) * 2 ^ 52 + (q - 2 ^ 52)

/-- The NaN bit pattern JavaScript engines produce. -/
def canonicalNaN : ℕ := 0x7FF8000000000000

end Float64

/-- `k` bytes of `v`, most significant first. -/
def bigEndian : ℕ → ℕ → Bytes
  | 0, _ => []
  | k + 1, v => UInt8.ofNat (v / 256 ^ k) :: bigEndian k v

/-- The number written by `bigEndian`. -/
def fromBigEndian (b : Bytes) : ℕ := b.foldl (fun acc x => acc * 256 + x.toNat) 0

/-! ### Writing -/

namespace Encoder

/-- `writeNumber`: a varInt when the value is integral and fits in 31 bits, a float32 when it
survives the conversion, a float64 otherwise. -/
def writeNumber (e : Encoder) (bits : ℕ) : Encoder :=
  match Float64.smallInt? bits with
  | some v =>
    let e := e.writeUint8 125
    -- lib0 writes negative zero with the sign bit set
    if v = 0 ∧ Float64.signbit bits then e.writeUint8 0x40 else e.writeVarInt v
  | none =>
    match Float64.float32? bits with
    | some f => (e.writeUint8 124).writeBytes (bigEndian 4 f)
    | none =>
      (e.writeUint8 123).writeBytes
        (bigEndian 8 (if Float64.isNaN bits then Float64.canonicalNaN else bits))

/-- `writeAny` with `fuel` levels of nesting left before `maxAnyDepth` is exceeded. -/
def writeAnyAt : ℕ → Encoder → Any → Encoder
  | 0, e, _ => e.fail .depthExceeded
  | k + 1, e, v =>
    match v with
    | .null => e.writeUint8 126
    | .undefined => e.writeUint8 127
    | .bool b => e.writeUint8 (if b then 120 else 121)
    | .string s => (e.writeUint8 119).writeVarString s
    | .bigInt b => (e.writeUint8 122).writeBytes (bigEndian 8 b.toNat)
    | .bytes b => (e.writeUint8 116).writeVarUint8Array b
    | .array l => l.foldl (writeAnyAt k) ((e.writeUint8 117).writeVarUint l.length)
    | .object fields =>
      fields.foldl (fun e f => writeAnyAt k (e.writeVarString f.1) f.2)
        ((e.writeUint8 118).writeVarUint fields.length)
    | .float32 b => (e.writeUint8 124).writeBytes (bigEndian 4 b.toNat)
    | .float64 b => e.writeNumber b.toNat
    | .int v => e.writeNumber (Float64.ofInt v)

/-- `WriteAny`. -/
def writeAny (e : Encoder) (v : Any) : Encoder := writeAnyAt (maxAnyDepth + 1) e v

end Encoder

/-! ### Reading -/

/-- `readAny` with `fuel` levels of nesting left. -/
def readAnyAt : ℕ → Read Any
  | 0 => Read.fail .depthExceeded
  | k + 1 => do
    let tag ← readUint8
    if tag = 127 then pure .undefined
    else if tag = 126 then pure .null
    else if tag = 125 then do
      let v ← readVarInt
      pure (.int v)
    else if tag = 124 then do
      let b ← readBytes 4
      pure (.float32 (UInt32.ofNat (fromBigEndian b)))
    else if tag = 123 then do
      let b ← readBytes 8
      pure (.float64 (UInt64.ofNat (fromBigEndian b)))
    else if tag = 122 then do
      let b ← readBytes 8
      pure (.bigInt (UInt64.ofNat (fromBigEndian b)))
    else if tag = 121 then pure (.bool false)
    else if tag = 120 then pure (.bool true)
    else if tag = 119 then do
      let s ← readVarString
      pure (.string s)
    else if tag = 118 then do
      let n ← readVarUint
      Read.checkRemaining n
      let fields ← Read.times (do
        let key ← readVarString
        let val ← readAnyAt k
        pure (key, val)) n
      pure (.object fields)
    else if tag = 117 then do
      let n ← readVarUint
      Read.checkRemaining n
      let l ← Read.times (readAnyAt k) n
      pure (.array l)
    else if tag = 116 then do
      let b ← readVarUint8Array
      pure (.bytes b)
    else Read.fail .unknownAnyTag

/-- `ReadAny`. -/
def readAny : Read Any := readAnyAt (maxAnyDepth + 1)

/-! ### Numbers -/

theorem foldl_bigEndian (k v acc : ℕ) :
    (bigEndian k v).foldl (fun acc x => acc * 256 + x.toNat) acc = acc * 256 ^ k + v % 256 ^ k := by
  induction k generalizing acc with
  | zero => simp [bigEndian, Nat.mod_one]
  | succ k ih =>
    have hbyte : (UInt8.ofNat (v / 256 ^ k)).toNat = v / 256 ^ k % 256 := by simp
    have hmod : v % 256 ^ (k + 1) = v % 256 ^ k + 256 ^ k * (v / 256 ^ k % 256) := by
      rw [Nat.pow_succ, Nat.mod_mul]
    rw [bigEndian, List.foldl_cons, ih, hbyte, hmod, Nat.pow_succ]
    ring

theorem fromBigEndian_bigEndian (k v : ℕ) : fromBigEndian (bigEndian k v) = v % 256 ^ k := by
  simp [fromBigEndian, foldl_bigEndian]

@[simp] theorem bigEndian_length (k v : ℕ) : (bigEndian k v).length = k := by
  induction k with
  | zero => rfl
  | succ k ih => simp [bigEndian, ih]

theorem readBytes_bigEndian_reads (k v : ℕ) : Reads (readBytes k) (bigEndian k v) (bigEndian k v) := by
  have := readBytes_reads (bigEndian k v)
  rwa [bigEndian_length] at this

theorem uint32_ofNat_bigEndian (v : ℕ) :
    UInt32.ofNat (fromBigEndian (bigEndian 4 v)) = UInt32.ofNat v := by
  rw [fromBigEndian_bigEndian]
  exact UInt32.toNat_inj.1 (by simp)

theorem uint64_ofNat_bigEndian (v : ℕ) :
    UInt64.ofNat (fromBigEndian (bigEndian 8 v)) = UInt64.ofNat v := by
  rw [fromBigEndian_bigEndian]
  exact UInt64.toNat_inj.1 (by simp)

theorem Float64.smallInt?_bounds {bits : ℕ} {v : ℤ} (h : Float64.smallInt? bits = some v) :
    -(maxInt31 : ℤ) ≤ v ∧ v ≤ maxInt31 := by
  unfold Float64.smallInt? at h
  simp only at h
  generalize (if Float64.exponent bits = 0 then Float64.mantissa bits
    else 2 ^ 52 + Float64.mantissa bits) = m at h
  generalize (if Float64.exponent bits = 0 then 1 else Float64.exponent bits) = e at h
  split at h
  · cases h
  · split at h
    next hm =>
      obtain rfl := Option.some.inj h
      have hq := hm.2
      generalize m / 2 ^ (1075 - e) = q at hq ⊢
      split <;> omega
    next => cases h

/-- The bytes `writeNumber` appends. -/
def numberBytes (bits : ℕ) : Bytes :=
  match Float64.smallInt? bits with
  | some v => [125] ++ if v = 0 ∧ Float64.signbit bits then [0x40] else Encoder.varInt v
  | none =>
    match Float64.float32? bits with
    | some f => [124] ++ bigEndian 4 f
    | none => [123] ++ bigEndian 8 (if Float64.isNaN bits then Float64.canonicalNaN else bits)

/-- The value these bytes hold. -/
def numberValue (bits : ℕ) : Any :=
  match Float64.smallInt? bits with
  | some v => .int v
  | none =>
    match Float64.float32? bits with
    | some f => .float32 (UInt32.ofNat f)
    | none =>
      .float64 (UInt64.ofNat (if Float64.isNaN bits then Float64.canonicalNaN else bits))

theorem maxInt31_le_maxSafeInteger : (maxInt31 : ℤ) ≤ maxSafeInteger := by decide

theorem writeNumber_writes (bits : ℕ) : Writes (·.writeNumber bits) (numberBytes bits) := by
  unfold Encoder.writeNumber numberBytes
  cases hv : Float64.smallInt? bits with
  | some v =>
    obtain ⟨hlo, hhi⟩ := Float64.smallInt?_bounds hv
    have hmax := maxInt31_le_maxSafeInteger
    dsimp only
    split
    · exact (writeUint8_writes 125).comp (writeUint8_writes 0x40)
    · exact (writeUint8_writes 125).comp (writeVarInt_writes (by omega) (by omega))
  | none =>
    cases Float64.float32? bits with
    | some f => exact (writeUint8_writes 124).comp (writeBytes_writes _)
    | none => exact (writeUint8_writes 123).comp (writeBytes_writes _)

theorem readAnyAt_number_reads (k bits : ℕ) :
    Reads (readAnyAt (k + 1)) (numberBytes bits) (numberValue bits) := by
  unfold readAnyAt numberBytes numberValue
  cases hv : Float64.smallInt? bits with
  | some v =>
    obtain ⟨hlo, hhi⟩ := Float64.smallInt?_bounds hv
    have hmax := maxInt31_le_maxSafeInteger
    refine (readUint8_reads 125).bind ?_
    by_cases hzero : v = 0 ∧ Float64.signbit bits
    · -- negative zero is read as zero
      rw [if_pos hzero, hzero.1]
      exact fun rest => rfl
    · rw [if_neg hzero]
      exact (readVarInt_reads (by omega) (by omega)).map
  | none =>
    cases Float64.float32? bits with
    | some f =>
      refine (readUint8_reads 124).bind ?_
      have := (readBytes_bigEndian_reads 4 f).map
        (g := fun b => Any.float32 (UInt32.ofNat (fromBigEndian b)))
      rwa [uint32_ofNat_bigEndian] at this
    | none =>
      refine (readUint8_reads 123).bind ?_
      have := (readBytes_bigEndian_reads 8
        (if Float64.isNaN bits then Float64.canonicalNaN else bits)).map
        (g := fun b => Any.float64 (UInt64.ofNat (fromBigEndian b)))
      rwa [uint64_ofNat_bigEndian] at this

theorem Float64.fields {s e m : ℕ} (hs : s < 2) (he : e < 2 ^ 11) (hm : m < 2 ^ 52) :
    let bits := s * 2 ^ 63 + e * 2 ^ 52 + m
    (Float64.signbit bits = decide (s = 1)) ∧ Float64.exponent bits = e ∧
      Float64.mantissa bits = m := by
  refine ⟨?_, ?_, ?_⟩
  · have : (s * 2 ^ 63 + e * 2 ^ 52 + m) / 2 ^ 63 % 2 = s := by omega
    simp only [Float64.signbit, this]
  · simp only [Float64.exponent]
    omega
  · simp only [Float64.mantissa]
    omega

/-- A small integer survives the conversion to a float. -/
theorem Float64.smallInt?_ofInt {t : ℤ} (h : t.natAbs ≤ maxInt31) :
    Float64.smallInt? (Float64.ofInt t) = some t := by
  by_cases hzero : t.natAbs = 0
  · obtain rfl : t = 0 := by omega
    decide +kernel
  -- `n = 2 ^ l + …` with `l ≤ 30`, so the mantissa holds all of it
  have hpow := Nat.log2_self_le hzero
  have hpow' : t.natAbs < 2 ^ (Nat.log2 t.natAbs + 1) := Nat.lt_log2_self
  have hmax : maxInt31 = 2147483647 := rfl
  have hlog : Nat.log2 t.natAbs < 31 := (Nat.log2_lt hzero).2 (by omega)
  set n := t.natAbs with hn
  set l := Nat.log2 n
  have hscale : 2 ^ l * 2 ^ (52 - l) = 2 ^ 52 := by rw [← Nat.pow_add]; congr 1; omega
  have hlow : 2 ^ 52 ≤ n * 2 ^ (52 - l) := by
    rw [← hscale]
    exact Nat.mul_le_mul_right _ hpow
  have hhigh : n * 2 ^ (52 - l) < 2 ^ 53 := by
    have : n * 2 ^ (52 - l) < 2 ^ (l + 1) * 2 ^ (52 - l) :=
      Nat.mul_lt_mul_of_pos_right hpow' (Nat.two_pow_pos _)
    rwa [Nat.pow_succ, Nat.mul_right_comm, hscale] at this
  obtain ⟨hsign, hexp, hmant⟩ := Float64.fields (s := if t < 0 then 1 else 0)
    (e := l + 1023) (m := n * 2 ^ (52 - l) - 2 ^ 52) (by split <;> omega) (by omega) (by omega)
  have hbits : Float64.ofInt t =
      (if t < 0 then 1 else 0) * 2 ^ 63 + (l + 1023) * 2 ^ 52 + (n * 2 ^ (52 - l) - 2 ^ 52) := by
    have hle : l ≤ 52 := by omega
    simp only [Float64.ofInt, ← hn, if_neg hzero]
    rw [if_pos hle]
    split <;> simp [l]
  have hm : 2 ^ 52 + (n * 2 ^ (52 - l) - 2 ^ 52) = n * 2 ^ (52 - l) := by omega
  have hshift : 1075 - (l + 1023) = 52 - l := by omega
  rw [hbits]
  unfold Float64.smallInt?
  simp only [hsign, hexp, hmant]
  rw [if_neg (show ¬l + 1023 = 0 by omega), if_neg (show ¬l + 1023 = 0 by omega), hm, hshift,
    if_neg (by omega), Nat.mul_mod_left, Nat.mul_div_cancel _ (Nat.two_pow_pos _),
    if_pos ⟨rfl, h⟩]
  refine congrArg some ?_
  by_cases ht : t < 0
  · rw [if_pos ht, decide_eq_true rfl, if_pos rfl]
    omega
  · rw [if_neg ht, decide_eq_false (by decide), if_neg (by decide)]
    omega

/-! ### Round trip -/

namespace Any

/-- `v` can be written with `k` levels of nesting left. -/
def Fits : ℕ → Any → Prop
  | 0, _ => False
  | k + 1, v =>
    match v with
    | .int v => v.natAbs ≤ 2 ^ 63
    | .string s => s.length ≤ maxSafeInteger
    | .bytes b => b.length ≤ maxSafeInteger
    | .array l => l.length ≤ maxSafeInteger ∧ ∀ x ∈ l, Fits k x
    | .object fields => fields.length ≤ maxSafeInteger ∧
        ∀ f ∈ fields, f.1.length ≤ maxSafeInteger ∧ Fits k f.2
    | _ => True

/-- The bytes `writeAnyAt k` appends for `v`. -/
def enc : ℕ → Any → Bytes
  | 0, _ => []
  | k + 1, v =>
    match v with
    | .null => [126]
    | .undefined => [127]
    | .bool b => [if b then 120 else 121]
    | .string s => [119] ++ (Encoder.varUint s.length ++ s)
    | .bigInt b => [122] ++ bigEndian 8 b.toNat
    | .bytes b => [116] ++ (Encoder.varUint b.length ++ b)
    | .array l => [117] ++ (Encoder.varUint l.length ++ l.flatMap (enc k))
    | .object fields => [118] ++ (Encoder.varUint fields.length ++
        fields.flatMap fun f => (Encoder.varUint f.1.length ++ f.1) ++ enc k f.2)
    | .float32 b => [124] ++ bigEndian 4 b.toNat
    | .float64 b => numberBytes b.toNat
    | .int v => numberBytes (Float64.ofInt v)

/-- The value `readAnyAt k` returns for these bytes. -/
def norm : ℕ → Any → Any
  | 0, v => v
  | k + 1, v =>
    match v with
    | .array l => .array (l.map (norm k))
    | .object fields => .object (fields.map fun f => (f.1, norm k f.2))
    | .float64 b => numberValue b.toNat
    | .int v => numberValue (Float64.ofInt v)
    | v => v

/-- `v` has no floats, and no integer beyond 31 bits. -/
inductive Plain : Any → Prop
  | undefined : Plain .undefined
  | null : Plain .null
  | bool (b : Bool) : Plain (.bool b)
  | int {v : ℤ} (h : v.natAbs ≤ maxInt31) : Plain (.int v)
  | bigInt (b : UInt64) : Plain (.bigInt b)
  | string (s : Bytes) : Plain (.string s)
  | bytes (b : Bytes) : Plain (.bytes b)
  | array {l : List Any} (h : ∀ x ∈ l, Plain x) : Plain (.array l)
  | object {fields : List (Bytes × Any)} (h : ∀ f ∈ fields, Plain f.2) : Plain (.object fields)

end Any

theorem writeAnyAt_writes {k : ℕ} {v : Any} (h : v.Fits k) :
    Writes (Encoder.writeAnyAt k · v) (v.enc k) := by
  induction k generalizing v with
  | zero => exact h.elim
  | succ k ih =>
    cases v with
    | undefined => exact writeUint8_writes 127
    | null => exact writeUint8_writes 126
    | bool b => exact writeUint8_writes _
    | int v => exact writeNumber_writes _
    | float32 b => exact (writeUint8_writes 124).comp (writeBytes_writes _)
    | float64 b => exact writeNumber_writes _
    | bigInt b => exact (writeUint8_writes 122).comp (writeBytes_writes _)
    | string s => exact (writeUint8_writes 119).comp (writeVarString_writes h)
    | bytes b => exact (writeUint8_writes 116).comp (writeVarUint8Array_writes h)
    | array l =>
      have hloop := foldl_writes (g := Encoder.writeAnyAt k) fun x hx => ih (h.2 x hx)
      have := ((writeUint8_writes 117).comp (writeVarUint_writes h.1)).comp hloop
      rwa [List.append_assoc] at this
    | object fields =>
      have hloop := foldl_writes (l := fields)
        (g := fun e f => Encoder.writeAnyAt k (e.writeVarString f.1) f.2) fun f hf =>
          (writeVarString_writes (h.2 f hf).1).comp (ih (h.2 f hf).2)
      have := ((writeUint8_writes 118).comp (writeVarUint_writes h.1)).comp hloop
      rwa [List.append_assoc] at this

theorem Any.enc_length_pos {k : ℕ} {v : Any} (h : v.Fits k) : 0 < (v.enc k).length := by
  cases k with
  | zero => exact h.elim
  | succ k =>
    have hnum (bits : ℕ) : 0 < (numberBytes bits).length := by
      unfold numberBytes
      split
      · simp
      · split <;> simp
    cases v <;> simp [Any.enc, hnum]

theorem length_le_flatMap {γ : Type} {l : List γ} {enc : γ → Bytes}
    (h : ∀ x ∈ l, 0 < (enc x).length) : l.length ≤ (l.flatMap enc).length := by
  induction l with
  | nil => simp
  | cons x l ih =>
    have hx := h x (List.mem_cons_self ..)
    have hl := ih fun y hy => h y (List.mem_cons_of_mem _ hy)
    simp only [List.length_cons, List.flatMap_cons, List.length_append]
    omega

theorem readAnyAt_reads {k : ℕ} {v : Any} (h : v.Fits k) :
    Reads (readAnyAt k) (v.enc k) (v.norm k) := by
  induction k generalizing v with
  | zero => exact h.elim
  | succ k ih =>
    cases v with
    | undefined => exact (readUint8_reads 127).bind (Reads.pure _)
    | null => exact (readUint8_reads 126).bind (Reads.pure _)
    | bool b => cases b <;> exact (readUint8_reads _).bind (Reads.pure _)
    | int v => exact readAnyAt_number_reads k _
    | float32 b =>
      refine (readUint8_reads 124).bind ?_
      have := (readBytes_bigEndian_reads 4 b.toNat).map
        (g := fun b => Any.float32 (UInt32.ofNat (fromBigEndian b)))
      rwa [uint32_ofNat_bigEndian, UInt32.ofNat_toNat] at this
    | float64 b => exact readAnyAt_number_reads k _
    | bigInt b =>
      refine (readUint8_reads 122).bind ?_
      have := (readBytes_bigEndian_reads 8 b.toNat).map
        (g := fun b => Any.bigInt (UInt64.ofNat (fromBigEndian b)))
      rwa [uint64_ofNat_bigEndian, UInt64.ofNat_toNat] at this
    | string s => exact (readUint8_reads 119).bind (readVarString_reads h).map
    | bytes b => exact (readUint8_reads 116).bind (readVarUint8Array_reads h).map
    | array l =>
      refine (readUint8_reads 117).bind ((readVarUint_reads h.1).bind ?_)
      have hlen := length_le_flatMap fun x hx => Any.enc_length_pos (h.2 x hx)
      exact Reads.checkRemaining hlen (Reads.times fun x hx => ih (h.2 x hx)).map
    | object fields =>
      refine (readUint8_reads 118).bind ((readVarUint_reads h.1).bind ?_)
      have hlen : fields.length ≤ (fields.flatMap fun f =>
          (Encoder.varUint f.1.length ++ f.1) ++ f.2.enc k).length :=
        length_le_flatMap fun f _ => List.append_assoc .. ▸ varUint_append_pos ..
      refine Reads.checkRemaining hlen (Reads.times (l := fields)
        (v := fun f : Bytes × Any => (f.1, f.2.norm k)) fun f hf => ?_).map
      exact (readVarString_reads (h.2 f hf).1).bind (ih (h.2 f hf).2).map

theorem Any.Plain.norm_eq {k : ℕ} {v : Any} (h : v.Plain) : v.norm k = v := by
  induction k generalizing v with
  | zero => rfl
  | succ k ih =>
    cases h with
    | int h => simp [Any.norm, numberValue, Float64.smallInt?_ofInt h]
    | array h =>
      simp only [Any.norm, Any.array.injEq]
      exact (List.map_congr_left fun x hx => ih (h x hx)).trans (List.map_id' _)
    | object h =>
      simp only [Any.norm, Any.object.injEq]
      refine (List.map_congr_left (g := fun f => f) fun f hf => ?_).trans (List.map_id' _)
      exact Prod.ext rfl (ih (h f hf))
    | _ => rfl

/-- What has been read can be written. -/
theorem readAnyAt_ensures (k : ℕ) : Ensures (readAnyAt k) (Any.Fits k) := by
  induction k with
  | zero => exact Ensures.fail _
  | succ k ih =>
    refine readUint8_ensures.bind fun tag _ => ?_
    refine .ite (fun _ => .pure trivial) fun _ => ?_
    refine .ite (fun _ => .pure trivial) fun _ => ?_
    refine .ite (fun _ => readVarInt_ensures.bind fun _ h => .pure h) fun _ => ?_
    refine .ite (fun _ => (readBytes_ensures 4).bind fun _ _ => .pure trivial) fun _ => ?_
    refine .ite (fun _ => (readBytes_ensures 8).bind fun _ _ => .pure trivial) fun _ => ?_
    refine .ite (fun _ => (readBytes_ensures 8).bind fun _ _ => .pure trivial) fun _ => ?_
    refine .ite (fun _ => .pure trivial) fun _ => ?_
    refine .ite (fun _ => .pure trivial) fun _ => ?_
    refine .ite (fun _ => readVarString_ensures.bind fun _ h => .pure h) fun _ => ?_
    refine .ite (fun _ => readVarUint_ensures.bind fun n _ => ?_) fun _ => ?_
    · have hfield : Ensures (do
          let key ← readVarString
          let val ← readAnyAt k
          pure (key, val)) fun f : Bytes × Any => f.1.length ≤ maxSafeInteger ∧ f.2.Fits k :=
        readVarString_ensures.bind fun key hkey => ih.bind fun val hval => .pure ⟨hkey, hval⟩
      refine (Ensures.checkRemaining n).bind fun _ hn => (hfield.times n).bind fun l hl => .pure ?_
      exact ⟨hl.1 ▸ hn, hl.2⟩
    refine .ite (fun _ => readVarUint_ensures.bind fun n _ => ?_) fun _ => ?_
    · refine (Ensures.checkRemaining n).bind fun _ hn => (ih.times n).bind fun l hl => .pure ?_
      exact ⟨hl.1 ▸ hn, hl.2⟩
    exact .ite (fun _ => readVarUint8Array_ensures.bind fun _ h => .pure h) fun _ => .fail _

theorem writeAny_writes {v : Any} (h : v.Fits (maxAnyDepth + 1)) :
    Writes (·.writeAny v) (v.enc (maxAnyDepth + 1)) :=
  writeAnyAt_writes h

theorem readAny_reads {v : Any} (h : v.Fits (maxAnyDepth + 1)) :
    Reads readAny (v.enc (maxAnyDepth + 1)) (v.norm (maxAnyDepth + 1)) :=
  readAnyAt_reads h

theorem readAny_ensures : Ensures readAny (Any.Fits (maxAnyDepth + 1)) :=
  readAnyAt_ensures _

/-! ### Appending -/

theorem writeNumber_appends (bits : ℕ) : Appends (·.writeNumber bits) := by
  unfold Encoder.writeNumber
  split
  · exact (writeUint8_appends _).comp (.ite (writeUint8_appends _) (writeVarInt_appends _))
  · split
    · exact (writeUint8_appends _).comp (writeBytes_appends _)
    · exact (writeUint8_appends _).comp (writeBytes_appends _)

theorem writeAnyAt_appends (k : ℕ) (v : Any) : Appends (Encoder.writeAnyAt k · v) := by
  induction k generalizing v with
  | zero => exact fail_appends _
  | succ k ih =>
    cases v with
    | null | undefined | bool => exact writeUint8_appends _
    | string => exact (writeUint8_appends _).comp (writeVarString_appends _)
    | bigInt | float32 => exact (writeUint8_appends _).comp (writeBytes_appends _)
    | bytes => exact (writeUint8_appends _).comp (writeVarUint8Array_appends _)
    | float64 | int => exact writeNumber_appends _
    | array l =>
      exact ((writeUint8_appends _).comp (writeVarUint_appends _)).comp (foldl_appends ih l)
    | object fields =>
      exact ((writeUint8_appends _).comp (writeVarUint_appends _)).comp
        (foldl_appends (fun f => (writeVarString_appends f.1).comp (ih f.2)) fields)

theorem writeAny_appends (v : Any) : Appends (·.writeAny v) := writeAnyAt_appends _ v

end YCollab.Lib0
