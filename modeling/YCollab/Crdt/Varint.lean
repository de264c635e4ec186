import Mathlib.Data.Int.ModEq
import Mathlib.Data.Nat.Digits.Defs
import YCollab.Crdt.Content

/-!
# What a varint is worth

A varint is a number in base 128, its last digit in the byte without a continuation bit; a signed
one has six bits and a sign in its first byte. The decoder adds the digits up in a 64-bit word, with
a weight that is a 64-bit word as well, and tests the range only while the sum so far is small: a
long run of empty digits leaves the sum at zero and lets the weight wrap. So what is returned is the
number modulo `2 ^ 64` (`readVarUint_value`, `readVarInt_value`), and it is the number exactly if
the number fits (`varint_exact_iff`).
-/

namespace YCollab.Crdt

open Lib0

/-- The number that the bytes of a varint are worth: the low seven bits of each are a digit, the
least significant first. -/
def uintValue (s : Bytes) : ℕ := Nat.ofDigits 128 (s.map fun r => r.toNat % 128)

/-- The number that the bytes of a signed varint are worth. -/
def intValue : Bytes → ℤ
  | [] => 0
  | r :: s => (if r.toNat / 64 % 2 ≠ 0 then -1 else 1) * (r.toNat % 64 + 64 * uintValue s : ℕ)

theorem uintValue_cons (r : UInt8) (s : Bytes) :
    uintValue (r :: s) = r.toNat % 128 + 128 * uintValue s := by
  simp only [uintValue, List.map_cons, Nat.ofDigits_cons]

/-- The loop adds what the bytes are worth, in words of 64 bits. -/
theorem readVarUintLoop_value {b rest : Bytes} {num mult n : ℕ}
    (h : readVarUintLoop b num mult = .ok (n, rest)) :
    ∃ s, b = s ++ rest ∧ n = (num + mult * uintValue s) % 2 ^ 64 := by
  induction b generalizing num mult with
  | nil => cases h
  | cons r b ih =>
    simp only [readVarUintLoop] at h
    split at h
    next =>
      obtain ⟨rfl, rfl⟩ := Prod.mk.inj (Except.ok.inj h)
      refine ⟨[r], rfl, ?_⟩
      rw [uintValue_cons, show uintValue [] = 0 from rfl, Nat.mul_comm mult]
      simp
    next =>
      split at h
      next => cases h
      next =>
        obtain ⟨s, rfl, rfl⟩ := ih h
        refine ⟨r :: s, rfl, ?_⟩
        rw [uintValue_cons, Nat.mod_add_mod, ← Nat.add_mod_mod, Nat.mod_mul_mod, Nat.add_mod_mod]
        ring_nf

theorem readVarUint_value {b rest : Bytes} {n : ℕ} (h : readVarUint b = .ok (n, rest)) :
    ∃ s, b = s ++ rest ∧ n = uintValue s % 2 ^ 64 := by
  obtain ⟨s, hb, hn⟩ := readVarUintLoop_value h
  exact ⟨s, hb, by rw [hn, Nat.zero_add, Nat.one_mul]⟩

theorem wrapInt64_modEq (x : ℤ) : wrapInt64 x ≡ x [ZMOD (2 ^ 64 : ℕ)] := Int.bmod_emod

theorem wrapInt64_congr {x y : ℤ} (h : x ≡ y [ZMOD (2 ^ 64 : ℕ)]) : wrapInt64 x = wrapInt64 y := by
  have hmod : ∀ z : ℤ, wrapInt64 z = Int.bmod (z % (2 ^ 64 : ℕ)) (2 ^ 64) := fun z =>
    (Int.emod_bmod ..).symm
  rw [hmod, hmod, h]

theorem wrapInt64_eq_self {x : ℤ} : wrapInt64 x = x ↔ -2 ^ 63 ≤ x ∧ x < 2 ^ 63 := by
  rw [wrapInt64, Int.bmod_eq_iff (by decide), Int.sub_self]
  norm_num

/-- The loop for signed varints does, with signed words. -/
theorem readVarIntLoop_value {sign num mult v : ℤ} {b rest : Bytes}
    (h : readVarIntLoop sign b num mult = .ok (v, rest)) :
    ∃ s, b = s ++ rest ∧ v = wrapInt64 (sign * (num + mult * uintValue s)) := by
  induction b generalizing num mult with
  | nil => cases h
  | cons r b ih =>
    -- one digit more, with its weight
    have hnum : wrapInt64 (num + wrapInt64 (r.toNat % 0x80 * mult)) ≡
        num + r.toNat % 0x80 * mult [ZMOD (2 ^ 64 : ℕ)] :=
      (wrapInt64_modEq _).trans ((Int.ModEq.refl num).add (wrapInt64_modEq _))
    simp only [readVarIntLoop] at h
    split at h
    next =>
      obtain ⟨rfl, rfl⟩ := Prod.mk.inj (Except.ok.inj h)
      have hval : num + r.toNat % 0x80 * mult = num + mult * uintValue [r] := by
        rw [uintValue_cons, show uintValue [] = 0 from rfl]
        push_cast
        ring
      exact ⟨[r], rfl, wrapInt64_congr ((Int.ModEq.refl sign).mul (hval ▸ hnum))⟩
    next =>
      split at h
      next => cases h
      next =>
        obtain ⟨s, rfl, rfl⟩ := ih h
        have hval : num + r.toNat % 0x80 * mult + mult * 0x80 * uintValue s =
            num + mult * uintValue (r :: s) := by
          rw [uintValue_cons]
          push_cast
          ring
        refine ⟨r :: s, rfl, wrapInt64_congr ((Int.ModEq.refl sign).mul ?_)⟩
        exact hval ▸ hnum.add ((wrapInt64_modEq _).mul_right _)

theorem readVarInt_value {b rest : Bytes} {v : ℤ} (h : readVarInt b = .ok (v, rest)) :
    ∃ s, b = s ++ rest ∧ v = wrapInt64 (intValue s) := by
  cases b with
  | nil => cases h
  | cons r b =>
    simp only [readVarInt] at h
    split at h
    next =>
      obtain ⟨rfl, rfl⟩ := Prod.mk.inj (Except.ok.inj h)
      refine ⟨[r], rfl, ?_⟩
      have hlt : r.toNat % 64 < 64 := Nat.mod_lt _ (by decide)
      have hval : intValue [r] =
          (if r.toNat / 0x40 % 2 ≠ 0 then -1 else 1) * ((r.toNat % 0x40 : ℕ) : ℤ) := rfl
      rw [hval]
      refine (wrapInt64_eq_self.2 ?_).symm
      split <;> omega
    next =>
      obtain ⟨s, rfl, rfl⟩ := readVarIntLoop_value h
      refine ⟨r :: s, rfl, ?_⟩
      simp only [intValue, Nat.cast_add, Nat.cast_mul, Nat.cast_ofNat]

/-- **Varints are read exactly if they fit.**  What a varint is read as is what its bytes are worth
exactly if that is below `2 ^ 64`, and then only what can be written is accepted where it has to be
written again; a signed one exactly if it fits into a signed word of 64 bits. -/
theorem varint_exact_iff (b rest : Bytes) :
    (∀ n, readVarUint b = .ok (n, rest) →
      ∃ s, b = s ++ rest ∧ (n = uintValue s ↔ uintValue s < 2 ^ 64)) ∧
    (∀ n, readSafeVarUint b = .ok (n, rest) →
      ∃ s, b = s ++ rest ∧ (uintValue s ≤ maxSafeInteger ↔ uintValue s < 2 ^ 64)) ∧
    ∀ v, readVarInt b = .ok (v, rest) →
      ∃ s, b = s ++ rest ∧ (v = intValue s ↔ -2 ^ 63 ≤ intValue s ∧ intValue s < 2 ^ 63) := by
  refine ⟨fun n h => ?_, fun n h => ?_, fun v h => ?_⟩
  · obtain ⟨s, hb, rfl⟩ := readVarUint_value h
    exact ⟨s, hb, fun heq => heq ▸ Nat.mod_lt _ (by decide), Nat.mod_eq_of_lt⟩
  · rw [readSafeVarUint, Read.bind_run] at h
    split at h
    next n' rest' hread =>
      split at h
      next => cases h
      next hle =>
        obtain ⟨rfl, rfl⟩ := Prod.mk.inj (Except.ok.inj h)
        obtain ⟨s, hb, rfl⟩ := readVarUint_value hread
        refine ⟨s, hb, fun hs => hs.trans_lt (by decide), fun hlt => ?_⟩
        rwa [Nat.mod_eq_of_lt hlt, Nat.not_lt] at hle
    next => cases h
  · obtain ⟨s, hb, rfl⟩ := readVarInt_value h
    exact ⟨s, hb, wrapInt64_eq_self⟩

/-- Two bytes are worth `200` and read as such. -/
theorem varint_of_two_bytes : readVarUint [0xC8, 0x01] = .ok (200, []) ∧
    ∃ s, [0xC8, 0x01] = s ++ [] ∧ (200 = uintValue s ↔ uintValue s < 2 ^ 64) :=
  ⟨rfl, (varint_exact_iff _ _).1 _ rfl⟩

/-- Nine empty digits and a two are worth `2 ^ 64`, and are read as zero; the same with a sign. -/
theorem long_varint_wraps :
    readSafeVarUint (List.replicate 9 0x80 ++ [0x02]) = .ok (0, []) ∧
      uintValue (List.replicate 9 0x80 ++ [0x02]) = 2 ^ 64 ∧
      readVarInt (List.replicate 9 0x80 ++ [0x04]) = .ok (0, []) ∧
      intValue (List.replicate 9 0x80 ++ [0x04]) = 2 ^ 64 := by
  decide +kernel

end YCollab.Crdt
