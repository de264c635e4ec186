import YCollab.Lib0.Any

/-!
# Writing a value again

A value that was written and read is `Any.norm`. Writing it once more gives the same bytes, with one
exception: a float64 that holds negative zero is written as the integer negative zero, which is read
as the integer zero (`Any.enc_norm_eq_iff`). The two forms have the same length
(`Any.length_enc_norm`), so what follows them does not move.
-/

namespace YCollab.Lib0

/-! ### Fields of a float -/

namespace Float64

theorem signbit_mod (bits : ℕ) : signbit (bits % 2 ^ 64) = signbit bits := by
  have : bits % 2 ^ 64 / 2 ^ 63 % 2 = bits / 2 ^ 63 % 2 := by omega
  simp only [signbit, this]

theorem exponent_mod (bits : ℕ) : exponent (bits % 2 ^ 64) = exponent bits := by
  simp only [exponent]
  omega

theorem mantissa_mod (bits : ℕ) : mantissa (bits % 2 ^ 64) = mantissa bits := by
  simp only [mantissa]
  omega

theorem smallInt?_mod (bits : ℕ) : smallInt? (bits % 2 ^ 64) = smallInt? bits := by
  simp only [smallInt?, signbit_mod, exponent_mod, mantissa_mod]

theorem float32?_mod (bits : ℕ) : float32? (bits % 2 ^ 64) = float32? bits := by
  simp only [float32?, signbit_mod, exponent_mod, mantissa_mod]

theorem isNaN_mod (bits : ℕ) : isNaN (bits % 2 ^ 64) = isNaN bits := by
  simp only [isNaN, exponent_mod, mantissa_mod]

theorem smallInt?_eq_zero {bits : ℕ} (h : smallInt? bits = some 0) :
    exponent bits = 0 ∧ mantissa bits = 0 := by
  unfold smallInt? at h
  simp only at h
  -- the significand is zero, which that of a normal number never is
  have hzero : (if exponent bits = 0 then mantissa bits else 2 ^ 52 + mantissa bits) = 0 := by
    generalize (if exponent bits = 0 then mantissa bits else 2 ^ 52 + mantissa bits) = m at h ⊢
    generalize (if exponent bits = 0 then 1 else exponent bits) = e at h
    split at h
    · cases h
    split at h
    next hm =>
      have hq : m / 2 ^ (1075 - e) = 0 := by
        have := Option.some.inj h
        split at this <;> omega
      rw [← Nat.div_add_mod m (2 ^ (1075 - e)), hq, hm.1]
      rfl
    next => cases h
  split at hzero <;> omega

/-- The bits of negative zero. -/
def negZero : UInt64 := 0x8000000000000000

theorem smallInt?_negZero {bits : UInt64} :
    smallInt? bits.toNat = some 0 ∧ signbit bits.toNat = true ↔ bits = negZero := by
  constructor
  · rintro ⟨h, hs⟩
    obtain ⟨he, hm⟩ := smallInt?_eq_zero h
    have hlt := bits.toNat_lt
    refine UInt64.toNat_inj.1 (?_ : _ = 2 ^ 63)
    simp only [signbit, exponent, mantissa, decide_eq_true_eq] at hs he hm
    omega
  · rintro rfl
    decide +kernel

/-- An int64 never becomes negative zero. -/
theorem signbit_ofInt {t : ℤ} (h : t.natAbs ≤ 2 ^ 63) (hz : smallInt? (ofInt t) = some 0) :
    signbit (ofInt t) = false := by
  by_cases hzero : t.natAbs = 0
  · obtain rfl : t = 0 := by omega
    decide +kernel
  exfalso
  have he := (smallInt?_eq_zero hz).1
  have hpow := Nat.log2_self_le hzero
  have hpow' : t.natAbs < 2 ^ (Nat.log2 t.natAbs + 1) := Nat.lt_log2_self
  have hlog : Nat.log2 t.natAbs < 64 := (Nat.log2_lt hzero).2 (by omega)
  simp only [ofInt, if_neg hzero, exponent] at he
  set n := t.natAbs
  set l := Nat.log2 n
  split at he
  next hl =>
    have hscale : 2 ^ (l + 1) * 2 ^ (52 - l) = 2 ^ 53 := by rw [← Nat.pow_add]; congr 1; omega
    have hhigh : n * 2 ^ (52 - l) < 2 ^ 53 := by
      rw [← hscale]
      exact Nat.mul_lt_mul_of_pos_right hpow' (Nat.two_pow_pos _)
    split at he <;> omega
  next hl =>
    have hscale : 2 ^ (l + 1) = 2 ^ 53 * 2 ^ (l - 52) := by rw [← Nat.pow_add]; congr 1; omega
    have hq : n / 2 ^ (l - 52) < 2 ^ 53 := Nat.div_lt_of_lt_mul (by rw [Nat.mul_comm, ← hscale]; exact hpow')
    generalize n / 2 ^ (l - 52) = q at he hq
    split at he <;> split at he <;> omega

end Float64

theorem bigEndian_mod {k m : ℕ} (v : ℕ) (h : k ≤ m) : bigEndian k (v % 256 ^ m) = bigEndian k v := by
  induction k with
  | zero => rfl
  | succ k ih =>
    have hbyte : UInt8.ofNat (v % 256 ^ m / 256 ^ k) = UInt8.ofNat (v / 256 ^ k) := by
      refine UInt8.toNat_inj.1 ?_
      obtain ⟨j, rfl⟩ := Nat.exists_eq_add_of_le h
      have hdvd : 256 ∣ 256 ^ (1 + j) := dvd_pow_self 256 (by omega)
      rw [Nat.add_assoc, Nat.pow_add, Nat.mod_mul_right_div_self]
      simp [Nat.mod_mod_of_dvd _ hdvd]
    rw [bigEndian, bigEndian, hbyte, ih (by omega)]

/-! ### Numbers -/

theorem numberBytes_mod (bits : ℕ) : numberBytes (bits % 2 ^ 64) = numberBytes bits := by
  have h8 : bigEndian 8 (bits % 2 ^ 64) = bigEndian 8 bits := bigEndian_mod (m := 8) bits le_rfl
  simp only [numberBytes, Float64.smallInt?_mod, Float64.float32?_mod, Float64.isNaN_mod,
    Float64.signbit_mod]
  cases Float64.smallInt? bits with
  | some v => rfl
  | none =>
    cases Float64.float32? bits with
    | some f => rfl
    | none =>
      dsimp only
      split
      · rfl
      · rw [h8]

theorem numberBytes_ofInt {v : ℤ} (h : v.natAbs ≤ maxInt31) :
    numberBytes (Float64.ofInt v) = [125] ++ Encoder.varInt v := by
  have hs := Float64.smallInt?_ofInt h
  have hneg : ¬(v = 0 ∧ Float64.signbit (Float64.ofInt v) = true) := by
    rintro ⟨rfl, hb⟩
    rw [Float64.signbit_ofInt (by decide) hs] at hb
    cases hb
  simp only [numberBytes, hs, if_neg hneg]

/-- A number is written again as it was, negative zero apart. -/
theorem enc_numberValue (k bits : ℕ) :
    ((numberValue bits).enc (k + 1) = numberBytes bits ↔
      ¬(Float64.smallInt? bits = some 0 ∧ Float64.signbit bits = true)) ∧
      ((numberValue bits).enc (k + 1)).length = (numberBytes bits).length := by
  cases hv : Float64.smallInt? bits with
  | some v =>
    have hb := Float64.smallInt?_bounds hv
    have henc : (numberValue bits).enc (k + 1) = [125] ++ Encoder.varInt v := by
      simp only [numberValue, hv]
      exact numberBytes_ofInt (by omega)
    have hbytes : numberBytes bits =
        [125] ++ if v = 0 ∧ Float64.signbit bits then [0x40] else Encoder.varInt v := by
      simp only [numberBytes, hv]
    rw [henc, hbytes]
    by_cases hz : v = 0 ∧ Float64.signbit bits
    · obtain ⟨rfl, hs⟩ := hz
      rw [if_pos ⟨rfl, hs⟩]
      exact ⟨iff_of_false (by decide) (by simp [hs]), rfl⟩
    · rw [if_neg hz]
      exact ⟨iff_of_true rfl (by simpa using hz), rfl⟩
  | none =>
    have hne : ¬((none : Option ℤ) = some 0 ∧ Float64.signbit bits = true) := by simp
    suffices heq : (numberValue bits).enc (k + 1) = numberBytes bits from
      ⟨iff_of_true heq hne, by rw [heq]⟩
    cases hf : Float64.float32? bits with
    | some f =>
      simp only [numberValue, numberBytes, hv, hf, Any.enc]
      have h4 : bigEndian 4 (f % 2 ^ 32) = bigEndian 4 f := bigEndian_mod (m := 4) f le_rfl
      rw [UInt32.toNat_ofNat', h4]
    | none =>
      have hval : numberValue bits = .float64 (UInt64.ofNat
          (if Float64.isNaN bits then Float64.canonicalNaN else bits)) := by
        simp only [numberValue, hv, hf]
      rw [hval, Any.enc, UInt64.toNat_ofNat']
      rw [numberBytes_mod]
      split
      next hn =>
        simp only [numberBytes, hv, hf, hn, if_true]
        decide +kernel
      next => rfl

/-- A number that was written and read is read again as it is. -/
theorem norm_numberValue (k bits : ℕ) : (numberValue bits).norm k = numberValue bits := by
  cases k with
  | zero => rfl
  | succ k =>
    cases hv : Float64.smallInt? bits with
    | some v =>
      have hb := Float64.smallInt?_bounds hv
      simp only [numberValue, hv]
      exact Any.Plain.norm_eq (.int (by omega))
    | none =>
      cases hf : Float64.float32? bits with
      | some f => simp only [numberValue, hv, hf, Any.norm]
      | none =>
        have hval : numberValue bits = .float64 (UInt64.ofNat
            (if Float64.isNaN bits then Float64.canonicalNaN else bits)) := by
          simp only [numberValue, hv, hf]
        rw [hval, Any.norm, UInt64.toNat_ofNat']
        cases hn : Float64.isNaN bits with
        | true =>
          have hsmall : Float64.smallInt? (Float64.canonicalNaN % 2 ^ 64) = none := by
            decide +kernel
          have hfloat : Float64.float32? (Float64.canonicalNaN % 2 ^ 64) = none := by
            decide +kernel
          have hnan : Float64.isNaN (Float64.canonicalNaN % 2 ^ 64) = true := by decide +kernel
          simp only [if_true, numberValue, hsmall, hfloat, hnan]
        | false =>
          simp only [Bool.false_eq_true, if_false, numberValue, Float64.smallInt?_mod,
            Float64.float32?_mod, Float64.isNaN_mod, hv, hf, hn, Any.float64.injEq]
          exact UInt64.toNat_inj.1 (by simp [UInt64.toNat_ofNat'])

namespace Any

/-- The value holds negative zero as a float64, or one of its parts does. -/
inductive HoldsNegZero : Any → Prop
  | here : HoldsNegZero (.float64 Float64.negZero)
  | array {l : List Any} {x : Any} (hx : x ∈ l) (h : HoldsNegZero x) : HoldsNegZero (.array l)
  | object {fields : List (Bytes × Any)} {f : Bytes × Any} (hf : f ∈ fields)
      (h : HoldsNegZero f.2) : HoldsNegZero (.object fields)

end Any

theorem flatMap_eq_iff {γ : Type} {l : List γ} {f g : γ → Bytes}
    (h : ∀ x ∈ l, (f x).length = (g x).length) : l.flatMap f = l.flatMap g ↔ ∀ x ∈ l, f x = g x := by
  induction l with
  | nil => simp
  | cons x l ih =>
    have hx := h x (List.mem_cons_self ..)
    have hl := ih fun y hy => h y (List.mem_cons_of_mem _ hy)
    rw [List.flatMap_cons, List.flatMap_cons, List.append_eq_append_iff_of_size_eq_left hx, hl,
      List.forall_mem_cons]

theorem length_flatMap_eq {γ : Type} {l : List γ} {f g : γ → Bytes}
    (h : ∀ x ∈ l, (f x).length = (g x).length) : (l.flatMap f).length = (l.flatMap g).length := by
  rw [List.length_flatMap, List.length_flatMap]
  exact congrArg _ (List.map_congr_left h)

namespace Any

theorem length_enc_norm (k : ℕ) (v : Any) : ((v.norm k).enc k).length = (v.enc k).length := by
  induction k generalizing v with
  | zero => rfl
  | succ k ih =>
    cases v with
    | array l =>
      simp only [norm, enc, List.flatMap_map, List.length_map, List.length_append]
      rw [length_flatMap_eq fun x _ => ih x]
    | object fields =>
      simp only [norm, enc, List.flatMap_map, List.length_map, List.length_append]
      rw [length_flatMap_eq (g := fun f => Encoder.varUint f.1.length ++ f.1 ++ f.2.enc k)
        fun f _ => by simp only [List.length_append, ih f.2]]
    | float64 b => exact (enc_numberValue k _).2
    | int v => exact (enc_numberValue k _).2
    | _ => rfl

/-- **A value that was written and read is written as before**, unless it holds negative zero as a
float64. -/
theorem enc_norm_eq_iff {k : ℕ} {v : Any} (h : v.Fits k) :
    (v.norm k).enc k = v.enc k ↔ ¬v.HoldsNegZero := by
  induction k generalizing v with
  | zero => exact h.elim
  | succ k ih =>
    cases v with
    | array l =>
      have hcases : (Any.array l).HoldsNegZero ↔ ∃ x ∈ l, x.HoldsNegZero :=
        ⟨fun h => by cases h with | array hx h => exact ⟨_, hx, h⟩,
          fun h => h.elim fun _ h => .array h.1 h.2⟩
      simp only [norm, enc, List.flatMap_map, List.length_map, List.append_right_inj, hcases]
      rw [flatMap_eq_iff fun x _ => length_enc_norm k x]
      push Not
      exact forall₂_congr fun x hx => ih (h.2 x hx)
    | object fields =>
      have hcases : (Any.object fields).HoldsNegZero ↔ ∃ f ∈ fields, f.2.HoldsNegZero :=
        ⟨fun h => by cases h with | object hf h => exact ⟨_, hf, h⟩,
          fun h => h.elim fun _ h => .object h.1 h.2⟩
      simp only [norm, enc, List.flatMap_map, List.length_map, List.append_right_inj, hcases]
      rw [flatMap_eq_iff fun f _ => by simp only [List.length_append, length_enc_norm k f.2]]
      push Not
      refine forall₂_congr fun f hf => ?_
      rw [List.append_right_inj]
      exact ih (h.2 f hf).2
    | float64 b =>
      rw [norm, enc, (enc_numberValue k _).1, Float64.smallInt?_negZero, not_iff_not]
      exact ⟨fun hb => hb ▸ .here, fun hb => by cases hb; rfl⟩
    | int v =>
      refine iff_of_true ((enc_numberValue k _).1.2 ?_) (by rintro ⟨⟩)
      rintro ⟨hz, hs⟩
      rw [Float64.signbit_ofInt h hz] at hs
      cases hs
    | _ => exact iff_of_true rfl (by rintro ⟨⟩)

theorem norm_norm (k : ℕ) (v : Any) : (v.norm k).norm k = v.norm k := by
  induction k generalizing v with
  | zero => rfl
  | succ k ih =>
    cases v with
    | array l => simp only [norm, List.map_map, Function.comp_def, ih]
    | object fields => simp only [norm, List.map_map, Function.comp_def, ih]
    | float64 b => exact norm_numberValue (k + 1) _
    | int v => exact norm_numberValue (k + 1) _
    | _ => rfl
/-- What was read back can be written. -/
theorem Fits.norm {k : ℕ} {v : Any} (h : v.Fits k) : (v.norm k).Fits k := by
  have hnum : ∀ k bits, (numberValue bits).Fits (k + 1) := by
    intro k bits
    unfold numberValue
    cases hv : Float64.smallInt? bits with
    | some v =>
      have hb := Float64.smallInt?_bounds hv
      have hmax : maxInt31 = 2147483647 := rfl
      exact (show v.natAbs ≤ 2 ^ 63 by omega)
    | none => cases Float64.float32? bits <;> exact trivial
  induction k generalizing v with
  | zero => exact h.elim
  | succ k ih =>
    cases v with
    | array l =>
      refine ⟨by simpa using h.1, fun y hy => ?_⟩
      obtain ⟨x, hx, rfl⟩ := List.mem_map.1 hy
      exact ih (h.2 x hx)
    | object fields =>
      refine ⟨by simpa using h.1, fun g hg => ?_⟩
      obtain ⟨f, hf, rfl⟩ := List.mem_map.1 hg
      exact ⟨(h.2 f hf).1, ih (h.2 f hf).2⟩
    | float64 b => exact hnum k _
    | int v => exact hnum k _
    | _ => exact h

theorem Plain.not_holdsNegZero {v : Any} (h : v.Plain) : ¬v.HoldsNegZero := by
  intro hz
  induction hz with
  | here => cases h
  | array hx _ ih => cases h with | array h => exact ih (h _ hx)
  | object hf _ ih => cases h with | object h => exact ih (h _ hf)

end Any

end YCollab.Lib0
