import Mathlib.Algebra.GroupWithZero.Nat
import Mathlib.Order.Lattice
import Mathlib.Order.Nat

/-!
# The lib0 encoder

`internal/crdt/lib0/encoder.go`: a growable buffer with a sticky error. The first failing write
records its error and every later write does nothing, so a caller checks `err` once at the end.

A Go byte slice is a `List UInt8` (`Bytes`), and so is a Go string, which need not be valid
UTF-8. Unsigned words are natural numbers; the two places where the width of the word matters
are the loop of `varUintLoop`, which has a turn for each seven bits of a 64-bit word, and the
decoder's accumulators.

`Writes w s` says that `w` appends exactly `s`, `Fails w` that it leaves an error behind; the
encoders of the rest of the development are described by these two.
-/

namespace YCollab

/-- A Go byte slice or string. -/
abbrev Bytes := List UInt8

/-- The errors of the `lib0` and `crdt` packages. -/
inductive Err where
  /-- `ErrUnexpectedEOF`: the input ended in the middle of a value. -/
  | unexpectedEOF
  /-- `ErrIntegerOutOfRange`: a value exceeds `MaxSafeInteger`. -/
  | integerOutOfRange
  /-- `ErrNegativeLength`: a length prefix did not fit in an int. -/
  | negativeLength
  /-- `ErrUnknownAnyTag`: an any value carried a type tag lib0 does not define. -/
  | unknownAnyTag
  /-- `ErrDepthExceeded`: an any value nested deeper than `maxAnyDepth`. -/
  | depthExceeded
  /-- `ErrUnknownContentRef`: the five content bits named a ref Yjs does not define. -/
  | unknownContentRef
  /-- `ErrUnknownTypeRef`: a ContentType named a type Yjs does not define. -/
  | unknownTypeRef
  /-- `ErrCorruptUpdate`: the update did not parse as a v1 update. -/
  | corruptUpdate
  /-- `ErrMissingStruct`: a struct referred to an ID the store does not have. -/
  | missingStruct
  /-- `errNotSplittable`: content of length 1 cannot be split. -/
  | notSplittable
  /-- `errSplitSurrogate`: a split would cut a surrogate pair. -/
  | splitSurrogate
  deriving DecidableEq, Repr

namespace Lib0

/-- JavaScript's `Number.MAX_SAFE_INTEGER`. -/
def maxSafeInteger : ℕ := 2 ^ 53 - 1

/-- The buffer and the first error. -/
structure Encoder where
  /-- The bytes written so far. -/
  buf : Bytes := []
  /-- The first failure; every write after it is a no-op. -/
  err : Option Err := none
  deriving DecidableEq, Repr

namespace Encoder

/-- Record `x` unless an error is recorded already. -/
def fail (e : Encoder) (x : Err) : Encoder :=
  match e.err with
  | none => { e with err := some x }
  | some _ => e

/-- Append raw bytes without a length. -/
def writeBytes (e : Encoder) (b : Bytes) : Encoder :=
  match e.err with
  | none => { e with buf := e.buf ++ b }
  | some _ => e

/-- Append one raw byte. -/
def writeUint8 (e : Encoder) (b : UInt8) : Encoder := e.writeBytes [b]

/-- The loop of `WriteVarUint`: seven bits a byte, least significant group first, `0x80` marking
continuation. The first argument counts the turns that are left in a 64-bit word. -/
def varUintLoop : ℕ → ℕ → Bytes
  | 0, v => [UInt8.ofNat v]
  | k + 1, v =>
    if v > 0x7F then UInt8.ofNat (0x80 + v % 0x80) :: varUintLoop k (v / 0x80)
    else [UInt8.ofNat v]

/-- The bytes `WriteVarUint` appends. -/
def varUint (v : ℕ) : Bytes := varUintLoop 9 v

/-- `WriteVarUint`; a value beyond the safe integers is an error. -/
def writeVarUint (e : Encoder) (v : ℕ) : Encoder :=
  match e.err with
  | none =>
    if v > maxSafeInteger then e.fail .integerOutOfRange
    else { e with buf := e.buf ++ varUint v }
  | some _ => e

/-- The loop of `WriteVarInt` over what is left of the magnitude after the first six bits. -/
def varIntLoop : ℕ → ℕ → Bytes
  | 0, _ => []
  | k + 1, num =>
    if num > 0 then
      UInt8.ofNat (num % 0x80 + if num > 0x7F then 0x80 else 0) :: varIntLoop k (num / 0x80)
    else []

/-- The bytes `WriteVarInt` appends: six bits and the sign in the first byte, seven bits in every
following one; the magnitude is written unsigned. -/
def varInt (v : ℤ) : Bytes :=
  let num := v.natAbs
  UInt8.ofNat (num % 0x40 + (if num > 0x3F then 0x80 else 0) + if v < 0 then 0x40 else 0) ::
    varIntLoop 10 (num / 0x40)

/-- `WriteVarInt`; a value beyond the safe integers is an error. -/
def writeVarInt (e : Encoder) (v : ℤ) : Encoder :=
  match e.err with
  | none =>
    if v < -maxSafeInteger ∨ v > maxSafeInteger then e.fail .integerOutOfRange
    else { e with buf := e.buf ++ varInt v }
  | some _ => e

/-- A length-prefixed byte slice. -/
def writeVarUint8Array (e : Encoder) (b : Bytes) : Encoder :=
  match e.err with
  | none => (e.writeVarUint b.length).writeBytes b
  | some _ => e

/-- A length-prefixed string; the length is in bytes. -/
def writeVarString (e : Encoder) (s : Bytes) : Encoder := e.writeVarUint8Array s

/-- The bytes, or the error that was recorded: the check of `Err` before `Bytes`. -/
def result (e : Encoder) : Except Err Bytes :=
  match e.err with
  | none => .ok e.buf
  | some x => .error x

end Encoder

/-! ### What a writer does -/

/-- `w` appends exactly `s` to a buffer without error. -/
def Writes (w : Encoder → Encoder) (s : Bytes) : Prop :=
  ∀ e, e.err = none → w e = { buf := e.buf ++ s, err := none }

/-- `w` leaves an error behind, whatever was there before. -/
def Fails (w : Encoder → Encoder) : Prop := ∀ e, (w e).err ≠ none

/-- `w` does nothing once an error is recorded. -/
def Sticky (w : Encoder → Encoder) : Prop := ∀ e, e.err ≠ none → w e = e

/-- `w` only appends: what is in the buffer stays, and nothing is written after an error. -/
structure Appends (w : Encoder → Encoder) : Prop where
  sticky : Sticky w
  grows : ∀ e, e.buf <+: (w e).buf

variable {w w' : Encoder → Encoder} {s s' : Bytes}

theorem Writes.id : Writes id [] := by
  rintro ⟨b, x⟩ rfl
  simp

theorem Writes.comp (h : Writes w s) (h' : Writes w' s') :
    Writes (fun e => w' (w e)) (s ++ s') := by
  intro e he
  change w' (w e) = _
  rw [h e he, h' _ rfl, List.append_assoc]

theorem Writes.result (h : Writes w s) : (w {}).result = .ok s := by
  rw [h {} rfl]
  rfl

theorem Sticky.comp (h : Sticky w) (h' : Sticky w') : Sticky fun e => w' (w e) := by
  intro e he
  simp only [h e he, h' e he]

theorem Fails.andThen (h : Fails w) (h' : Appends w') : Fails fun e => w' (w e) := by
  intro e
  simp only [h'.sticky _ (h e)]
  exact h e

theorem Fails.after (h : Fails w) (w' : Encoder → Encoder) : Fails fun e => w (w' e) :=
  fun e => h (w' e)

theorem Fails.result (h : Fails w) (b : Bytes) : (w {}).result ≠ .ok b := by
  unfold Encoder.result
  cases he : (w {}).err with
  | none => exact absurd he (h {})
  | some x => simp

theorem writeBytes_writes (b : Bytes) : Writes (·.writeBytes b) b := by
  rintro ⟨buf, x⟩ rfl
  rfl

theorem writeUint8_writes (b : UInt8) : Writes (·.writeUint8 b) [b] := writeBytes_writes [b]

theorem writeVarUint_writes {v : ℕ} (h : v ≤ maxSafeInteger) :
    Writes (·.writeVarUint v) (Encoder.varUint v) := by
  rintro ⟨buf, x⟩ rfl
  simp [Encoder.writeVarUint, Nat.not_lt.2 h]

theorem writeVarUint_fails {v : ℕ} (h : maxSafeInteger < v) : Fails (·.writeVarUint v) := by
  rintro ⟨buf, _ | x⟩
  · simp [Encoder.writeVarUint, h, Encoder.fail]
  · simp [Encoder.writeVarUint]

theorem Appends.id : Appends id := ⟨fun _ _ => rfl, fun _ => List.prefix_rfl⟩

theorem Appends.comp (h : Appends w) (h' : Appends w') : Appends fun e => w' (w e) :=
  ⟨h.sticky.comp h'.sticky, fun e => (h.grows e).trans (h'.grows (w e))⟩

theorem Appends.of_buf (h : ∀ buf x, w ⟨buf, some x⟩ = ⟨buf, some x⟩)
    (hg : ∀ buf, buf <+: (w ⟨buf, none⟩).buf) : Appends w := by
  constructor
  · rintro ⟨buf, _ | x⟩ he
    · exact absurd rfl he
    · exact h buf x
  · rintro ⟨buf, _ | x⟩
    · exact hg buf
    · simp [h]

theorem Appends.ite {c : Prop} [Decidable c] (h : Appends w) (h' : Appends w') :
    Appends fun e => if c then w e else w' e := by
  split
  · exact h
  · exact h'

theorem fail_appends (x : Err) : Appends (·.fail x) :=
  .of_buf (fun _ _ => rfl) fun _ => List.prefix_rfl

theorem writeBytes_appends (b : Bytes) : Appends (·.writeBytes b) :=
  .of_buf (fun _ _ => rfl) fun _ => List.prefix_append ..

theorem writeUint8_appends (b : UInt8) : Appends (·.writeUint8 b) := writeBytes_appends [b]

theorem writeVarUint_appends (v : ℕ) : Appends (·.writeVarUint v) := by
  refine .of_buf (fun _ _ => rfl) fun buf => ?_
  simp only [Encoder.writeVarUint]
  split
  · exact List.prefix_rfl
  · exact List.prefix_append ..

theorem writeVarInt_appends (v : ℤ) : Appends (·.writeVarInt v) := by
  refine .of_buf (fun _ _ => rfl) fun buf => ?_
  simp only [Encoder.writeVarInt]
  split
  · exact List.prefix_rfl
  · exact List.prefix_append ..

theorem foldl_appends {α : Type} {g : Encoder → α → Encoder} (h : ∀ x, Appends (g · x))
    (l : List α) : Appends fun e => l.foldl g e := by
  induction l with
  | nil => exact .id
  | cons x l ih => exact (h x).comp ih

theorem varUint_eq_zero_cons {v : ℕ} {l l' : Bytes} (h : Encoder.varUint v ++ l = 0 :: l') :
    v = 0 := by
  unfold Encoder.varUint Encoder.varUintLoop at h
  split at h
  · have hhead := congrArg UInt8.toNat (List.cons.inj h).1
    simp only [UInt8.toNat_ofNat', UInt8.reduceToNat] at hhead
    omega
  · have hhead := congrArg UInt8.toNat (List.cons.inj h).1
    simp only [UInt8.toNat_ofNat', UInt8.reduceToNat] at hhead
    omega

theorem writeVarInt_writes {v : ℤ} (h : -maxSafeInteger ≤ v) (h' : v ≤ maxSafeInteger) :
    Writes (·.writeVarInt v) (Encoder.varInt v) := by
  rintro ⟨buf, x⟩ rfl
  simp [Encoder.writeVarInt, Int.not_lt.2 h, Int.not_lt.2 h']

theorem writeVarUint8Array_writes {b : Bytes} (h : b.length ≤ maxSafeInteger) :
    Writes (·.writeVarUint8Array b) (Encoder.varUint b.length ++ b) := by
  rintro ⟨buf, x⟩ rfl
  exact (writeVarUint_writes h).comp (writeBytes_writes b) ⟨buf, none⟩ rfl

theorem writeVarUint8Array_appends (b : Bytes) : Appends (·.writeVarUint8Array b) :=
  .of_buf (fun _ _ => rfl) fun buf =>
    ((writeVarUint_appends b.length).comp (writeBytes_appends b)).grows ⟨buf, none⟩

theorem writeVarString_appends (b : Bytes) : Appends (·.writeVarString b) :=
  writeVarUint8Array_appends b

theorem writeVarString_writes {b : Bytes} (h : b.length ≤ maxSafeInteger) :
    Writes (·.writeVarString b) (Encoder.varUint b.length ++ b) :=
  writeVarUint8Array_writes h

theorem foldl_writes {α : Type} {g : Encoder → α → Encoder} {f : α → Bytes} {l : List α}
    (h : ∀ x ∈ l, Writes (g · x) (f x)) : Writes (fun e => l.foldl g e) (l.flatMap f) := by
  induction l with
  | nil => exact Writes.id
  | cons x l ih =>
    simp only [List.foldl_cons, List.flatMap_cons]
    exact (h x (List.mem_cons_self ..)).comp (ih fun y hy => h y (List.mem_cons_of_mem _ hy))

theorem foldl_fails {α : Type} {g : Encoder → α → Encoder} {l : List α} {x : α} (hx : x ∈ l)
    (hf : Fails (g · x)) (h : ∀ x, Appends (g · x)) : Fails fun e => l.foldl g e := by
  induction l with
  | nil => simp at hx
  | cons y l ih =>
    simp only [List.foldl_cons]
    rcases List.mem_cons.1 hx with rfl | hx
    · exact hf.andThen (foldl_appends h l)
    · exact (ih hx).after (g · y)

end Lib0

end YCollab
