import Mathlib.Tactic.Ring
import YCollab.Lib0.Encoder

/-!
# The lib0 decoder

`internal/crdt/lib0/decoder.go`. A decoder is the input it has not read yet, so a read method is
a function from the remaining bytes to a value and the bytes after it (`Read`); an error ends
the whole decoding, as it does in every caller of the source.

`Ensures r P` is a postcondition: what `r` returns satisfies `P`. `Reads r s a` says that `r`
consumes exactly `s`, whatever follows, and returns `a`. The round trips are
`readVarUint_reads`, `readVarInt_reads` and `readVarUint8Array_reads`.
-/

namespace YCollab.Lib0

/-- A read method of the decoder: from the unread input to a value and the rest of it. -/
def Read (α : Type) : Type := Bytes → Except Err (α × Bytes)

namespace Read

variable {α β : Type}

instance : Monad Read where
  pure a := fun b => .ok (a, b)
  bind r f := fun b =>
    match r b with
    | .ok (a, rest) => f a rest
    | .error x => .error x

/-- Give up with an error. -/
def fail (x : Err) : Read α := fun _ => .error x

/-- Run `r` `n` times. -/
def times (r : Read α) : ℕ → Read (List α)
  | 0 => pure []
  | n + 1 => do
    let a ← r
    let l ← times r n
    pure (a :: l)

/-- The check that a count does not exceed the bytes that are left. -/
def checkRemaining (n : ℕ) : Read Unit := fun b =>
  if n > b.length then .error .unexpectedEOF else .ok ((), b)

theorem pure_run (a : α) (b : Bytes) : (pure a : Read α) b = .ok (a, b) := rfl

theorem bind_run (r : Read α) (f : α → Read β) (b : Bytes) :
    (r >>= f) b = match r b with
      | .ok (a, rest) => f a rest
      | .error x => .error x := rfl

theorem bind_run_ok {r : Read α} {f : α → Read β} {b rest : Bytes} {a : α}
    (h : r b = .ok (a, rest)) : (r >>= f) b = f a rest := by
  rw [bind_run, h]

theorem exists_of_bind {r : Read α} {f : α → Read β} {b : Bytes} {x : β × Bytes}
    (h : (r >>= f) b = .ok x) : ∃ a rest, r b = .ok (a, rest) ∧ f a rest = .ok x := by
  rw [bind_run] at h
  split at h
  next a rest hr => exact ⟨a, rest, hr, h⟩
  next => cases h

end Read

/-- `ReadUint8`. -/
def readUint8 : Read UInt8
  | [] => .error .unexpectedEOF
  | b :: rest => .ok (b, rest)

/-- `ReadBytes`, for a length that is not negative. -/
def readBytes (n : ℕ) : Read Bytes := fun b =>
  if b.length < n then .error .unexpectedEOF else .ok (b.take n, b.drop n)

/-- The loop of `ReadVarUint`. `num` and `mult` are 64-bit words and wrap; the range check runs
only when another byte follows. -/
def readVarUintLoop : Bytes → ℕ → ℕ → Except Err (ℕ × Bytes)
  | [], _, _ => .error .unexpectedEOF
  | r :: rest, num, mult =>
    let num := (num + r.toNat % 0x80 * mult) % 2 ^ 64
    let mult := mult * 0x80 % 2 ^ 64
    if r.toNat < 0x80 then .ok (num, rest)
    else if num > maxSafeInteger then .error .integerOutOfRange
    else readVarUintLoop rest num mult

/-- `ReadVarUint`. -/
def readVarUint : Read ℕ := fun b => readVarUintLoop b 0 1

/-- A 64-bit signed word that has wrapped around. -/
def wrapInt64 (x : ℤ) : ℤ := Int.bmod x (2 ^ 64)

/-- The loop of `ReadVarInt` after the first byte. -/
def readVarIntLoop (sign : ℤ) : Bytes → ℤ → ℤ → Except Err (ℤ × Bytes)
  | [], _, _ => .error .unexpectedEOF
  | r :: rest, num, mult =>
    let num := wrapInt64 (num + wrapInt64 (r.toNat % 0x80 * mult))
    let mult := wrapInt64 (mult * 0x80)
    if r.toNat < 0x80 then .ok (wrapInt64 (sign * num), rest)
    else if num > maxSafeInteger then .error .integerOutOfRange
    else readVarIntLoop sign rest num mult

/-- `ReadVarInt`: the first byte has the sign and six bits. -/
def readVarInt : Read ℤ
  | [] => .error .unexpectedEOF
  | r :: rest =>
    let num : ℤ := (r.toNat % 0x40 : ℕ)
    let sign : ℤ := if r.toNat / 0x40 % 2 ≠ 0 then -1 else 1
    if r.toNat < 0x80 then .ok (sign * num, rest) else readVarIntLoop sign rest num 64

/-- A length-prefixed byte slice. -/
def readVarUint8Array : Read Bytes := do
  let n ← readVarUint
  Read.checkRemaining n
  readBytes n

/-- A length-prefixed string; invalid UTF-8 passes through. -/
def readVarString : Read Bytes := readVarUint8Array

/-! ### What a reader guarantees of its result -/

/-- Whatever `r` returns satisfies `P`. -/
def Yields {α : Type} (r : Read α) (P : α → Prop) : Prop := ∀ b a rest, r b = .ok (a, rest) → P a

/-- Whatever `r` returns satisfies `P` and leaves no more input than there was, if the input is one
that the encoder could prefix with its length. -/
def Ensures {α : Type} (r : Read α) (P : α → Prop) : Prop :=
  ∀ b a rest, b.length ≤ maxSafeInteger → r b = .ok (a, rest) → rest.length ≤ b.length ∧ P a

section Ensures

variable {α β : Type} {r : Read α} {f : α → Read β} {P : α → Prop} {Q : β → Prop}

theorem Yields.any (r : Read α) : Yields r fun _ => True := fun _ _ _ _ => trivial

theorem Yields.pure {a : α} (h : P a) : Yields (Pure.pure a) P := by
  rintro b _ _ ⟨⟩
  exact h

theorem Yields.fail (x : Err) : Yields (Read.fail x) P := nofun

theorem Yields.bind (h : Yields r P) (hf : ∀ a, P a → Yields (f a) Q) : Yields (r >>= f) Q := by
  intro b c rest hr
  rw [Read.bind_run] at hr
  split at hr
  next a mid heq => exact hf a (h b a mid heq) mid c rest hr
  next => cases hr

theorem Yields.ite {c : Prop} [Decidable c] {r r' : Read α} (h : c → Yields r P)
    (h' : ¬c → Yields r' P) : Yields (if c then r else r') P := by
  split
  · exact h ‹_›
  · exact h' ‹_›

theorem Yields.times (h : Yields r P) (n : ℕ) : Yields (r.times n) fun l => ∀ a ∈ l, P a := by
  induction n with
  | zero => exact .pure (by simp)
  | succ n ih =>
    exact h.bind fun a ha => ih.bind fun l hl => .pure (List.forall_mem_cons.2 ⟨ha, hl⟩)

theorem Ensures.mono {P' : α → Prop} (h : Ensures r P) (hP : ∀ a, P a → P' a) : Ensures r P' :=
  fun b a rest hb hr => (h b a rest hb hr).imp_right (hP a)

theorem Ensures.pure {a : α} (h : P a) : Ensures (Pure.pure a) P := by
  rintro b _ _ - ⟨⟩
  exact ⟨le_rfl, h⟩

theorem Ensures.fail (x : Err) : Ensures (Read.fail x) P := nofun

theorem Ensures.bind (h : Ensures r P) (hf : ∀ a, P a → Ensures (f a) Q) :
    Ensures (r >>= f) Q := by
  intro b c rest hb hr
  rw [Read.bind_run] at hr
  split at hr
  next a mid heq =>
    obtain ⟨hmid, ha⟩ := h b a mid hb heq
    obtain ⟨hrest, hc⟩ := hf a ha mid c rest (hmid.trans hb) hr
    exact ⟨hrest.trans hmid, hc⟩
  next => cases hr

theorem Ensures.ite {c : Prop} [Decidable c] {r r' : Read α} (h : c → Ensures r P)
    (h' : ¬c → Ensures r' P) : Ensures (if c then r else r') P := by
  split
  · exact h ‹_›
  · exact h' ‹_›

theorem Ensures.checkRemaining (n : ℕ) :
    Ensures (Read.checkRemaining n) fun _ => n ≤ maxSafeInteger := by
  intro b u rest hb h
  unfold Read.checkRemaining at h
  split at h
  · cases h
  · cases h
    exact ⟨le_rfl, by omega⟩

theorem Ensures.times (h : Ensures r P) (n : ℕ) :
    Ensures (r.times n) fun l => l.length = n ∧ ∀ a ∈ l, P a := by
  induction n with
  | zero => exact Ensures.pure (by simp)
  | succ n ih =>
    refine h.bind fun a ha => ih.bind fun l hl => Ensures.pure ?_
    exact ⟨by simp [hl.1], List.forall_mem_cons.2 ⟨ha, hl.2⟩⟩

theorem readUint8_ensures : Ensures readUint8 fun _ => True := by
  intro b a rest _ h
  cases b with
  | nil => cases h
  | cons x b =>
    cases h
    simp

theorem readBytes_ensures (n : ℕ) :
    Ensures (readBytes n) fun s => s.length = n ∧ s.length ≤ maxSafeInteger := by
  intro b a rest hb h
  unfold readBytes at h
  split at h
  · cases h
  · cases h
    simp only [List.length_drop, List.length_take]
    omega

theorem readVarUintLoop_length {b rest : Bytes} {num mult v : ℕ}
    (h : readVarUintLoop b num mult = .ok (v, rest)) : rest.length ≤ b.length := by
  induction b generalizing num mult with
  | nil => cases h
  | cons r b ih =>
    simp only [readVarUintLoop] at h
    split at h
    · cases h
      simp
    · split at h
      · cases h
      · exact (ih h).trans (by simp)

theorem readVarUint_ensures : Ensures readVarUint fun _ => True :=
  fun _ _ _ _ h => ⟨readVarUintLoop_length h, trivial⟩

theorem wrapInt64_natAbs (x : ℤ) : (wrapInt64 x).natAbs ≤ 2 ^ 63 := by
  have hlo : -((2 ^ 64 : ℕ) : ℤ) / 2 ≤ wrapInt64 x := Int.le_bmod (by decide)
  have hhi : wrapInt64 x < ((2 ^ 64 : ℕ) + 1 : ℤ) / 2 := Int.bmod_lt (by decide)
  omega

theorem readVarIntLoop_ensures {sign num mult v : ℤ} {b rest : Bytes}
    (h : readVarIntLoop sign b num mult = .ok (v, rest)) :
    rest.length ≤ b.length ∧ v.natAbs ≤ 2 ^ 63 := by
  induction b generalizing num mult with
  | nil => cases h
  | cons r b ih =>
    simp only [readVarIntLoop] at h
    split at h
    · cases h
      exact ⟨by simp, wrapInt64_natAbs _⟩
    · split at h
      · cases h
      · exact ⟨(ih h).1.trans (by simp), (ih h).2⟩

theorem readVarInt_ensures : Ensures readVarInt fun v => v.natAbs ≤ 2 ^ 63 := by
  intro b a rest _ h
  cases b with
  | nil => cases h
  | cons r b =>
    simp only [readVarInt] at h
    split at h
    · cases h
      refine ⟨by simp, ?_⟩
      dsimp only
      split <;> omega
    · exact ⟨(readVarIntLoop_ensures h).1.trans (by simp), (readVarIntLoop_ensures h).2⟩

theorem readVarUint8Array_ensures :
    Ensures readVarUint8Array fun s => s.length ≤ maxSafeInteger :=
  readVarUint_ensures.bind fun n _ => (Ensures.checkRemaining n).bind fun _ _ =>
    (readBytes_ensures n).mono fun _ h => h.2

theorem readVarString_ensures : Ensures readVarString fun s => s.length ≤ maxSafeInteger :=
  readVarUint8Array_ensures

end Ensures

/-! ### What a reader consumes -/

/-- `r` consumes exactly `s`, whatever follows it, and returns `a`. -/
def Reads {α : Type} (r : Read α) (s : Bytes) (a : α) : Prop :=
  ∀ rest, r (s ++ rest) = .ok (a, rest)

variable {α β : Type} {r : Read α} {f : α → Read β} {s t : Bytes} {a : α} {b : β}

theorem Reads.pure (a : α) : Reads (Pure.pure a) [] a := fun _ => rfl

theorem Reads.bind (h : Reads r s a) (h' : Reads (f a) t b) : Reads (r >>= f) (s ++ t) b := by
  intro rest
  rw [List.append_assoc, Read.bind_run_ok (h _), h']

theorem Reads.map {g : α → β} (h : Reads r s a) :
    Reads (r >>= fun x => Pure.pure (g x)) s (g a) := by
  intro rest
  rw [Read.bind_run_ok (h rest), Read.pure_run]

theorem Reads.checkRemaining {n : ℕ} {f : Unit → Read β} (hn : n ≤ t.length)
    (h : Reads (f ()) t b) : Reads (Read.checkRemaining n >>= f) t b := by
  intro rest
  have hok : Read.checkRemaining n (t ++ rest) = .ok ((), t ++ rest) :=
    if_neg (by rw [List.length_append]; omega)
  rw [Read.bind_run_ok hok, h]

theorem Reads.times {γ : Type} {l : List γ} {s : γ → Bytes} {v : γ → α}
    (h : ∀ x ∈ l, Reads r (s x) (v x)) :
    Reads (r.times l.length) (l.flatMap s) (l.map v) := by
  induction l with
  | nil => exact Reads.pure []
  | cons x l ih =>
    have hx := h x (List.mem_cons_self ..)
    have hl := ih fun y hy => h y (List.mem_cons_of_mem _ hy)
    exact hx.bind hl.map

theorem Reads.times_self {l : List α} {s : α → Bytes} (h : ∀ x ∈ l, Reads r (s x) x) :
    Reads (r.times l.length) (l.flatMap s) l := by
  simpa using Reads.times (v := id) h

theorem Reads.run (h : Reads r s a) : r s = .ok (a, []) := by
  simpa using h []

/-- `r` fails on `s`, whatever follows it. -/
def Refuses {α : Type} (r : Read α) (s : Bytes) : Prop := ∀ rest, ∃ x, r (s ++ rest) = .error x

theorem Refuses.append (h : Refuses r s) (t : Bytes) : Refuses r (s ++ t) := by
  intro rest
  rw [List.append_assoc]
  exact h _

theorem Refuses.bind (h : Refuses r s) : Refuses (r >>= f) s := by
  intro rest
  obtain ⟨x, hx⟩ := h rest
  exact ⟨x, by rw [Read.bind_run, hx]⟩

theorem Reads.refuses (h : Reads r s a) (h' : Refuses (f a) t) : Refuses (r >>= f) (s ++ t) := by
  intro rest
  rw [List.append_assoc, Read.bind_run_ok (h _)]
  exact h' rest

theorem Refuses.checkRemaining {n : ℕ} {f : Unit → Read β} (h : Refuses (f ()) t) :
    Refuses (Read.checkRemaining n >>= f) t := by
  intro rest
  rw [Read.bind_run]
  unfold Read.checkRemaining
  split
  next heq =>
    split at heq
    · cases heq
    · cases heq
      exact h rest
  next x _ => exact ⟨x, rfl⟩

theorem Refuses.times {γ : Type} {l : List γ} {s : γ → Bytes} {v : γ → α} {P : γ → Prop}
    (hreads : ∀ x ∈ l, P x → Reads r (s x) (v x)) (hrefuses : ∀ x ∈ l, ¬P x → Refuses r (s x))
    (h : ¬∀ x ∈ l, P x) : Refuses (r.times l.length) (l.flatMap s) := by
  induction l with
  | nil => exact absurd (by simp) h
  | cons x l ih =>
    rw [List.forall_mem_cons] at hreads hrefuses h
    by_cases hx : P x
    · have hl := ih hreads.2 hrefuses.2 fun hl => h ⟨hx, hl⟩
      exact (hreads.1 hx).refuses (Refuses.bind hl)
    · exact (Refuses.bind (hrefuses.1 hx)).append _

theorem readUint8_reads (x : UInt8) : Reads readUint8 [x] x := fun _ => rfl

theorem readBytes_reads (s : Bytes) : Reads (readBytes s.length) s s := by
  intro rest
  simp [readBytes]

theorem toNat_ofNat_of_lt {n : ℕ} (h : n < 256) : (UInt8.ofNat n).toNat = n := by
  simp [Nat.mod_eq_of_lt h]

/-- The reader's loop undoes the writer's: `num` is what has been read, `mult` the weight of the
next group, and the total stays a safe integer, so no word wraps. -/
theorem readVarUintLoop_varUintLoop (k v num mult : ℕ) (rest : Bytes) (hv : v < 128 ^ (k + 1))
    (hsafe : num + v * mult ≤ maxSafeInteger) :
    readVarUintLoop (Encoder.varUintLoop k v ++ rest) num mult = .ok (num + v * mult, rest) := by
  have hlt : num + v * mult < 18446744073709551616 := lt_of_le_of_lt hsafe (by decide)
  induction k generalizing v num mult with
  | zero =>
    have hv : v < 128 := by simpa using hv
    simp [Encoder.varUintLoop, readVarUintLoop, toNat_ofNat_of_lt (show v < 256 by omega), hv,
      Nat.mod_eq_of_lt hv, hlt]
  | succ k ih =>
    unfold Encoder.varUintLoop
    split
    next hgt =>
      have hbyte : (UInt8.ofNat (0x80 + v % 0x80)).toNat = 0x80 + v % 0x80 :=
        toNat_ofNat_of_lt (by omega)
      have hsplit : v * mult = v % 0x80 * mult + v / 0x80 * (mult * 0x80) := by
        conv_lhs => rw [← Nat.mod_add_div v 0x80]
        ring
      have hmult : mult * 0x80 ≤ v / 0x80 * (mult * 0x80) :=
        Nat.le_mul_of_pos_left _ (Nat.div_pos (by omega) (by omega))
      simp only [readVarUintLoop, List.cons_append, hbyte]
      have hmod : (0x80 + v % 0x80) % 0x80 = v % 0x80 := by omega
      rw [hmod, Nat.mod_eq_of_lt (a := num + _) (by omega), Nat.mod_eq_of_lt (a := mult * 0x80)
        (by omega), if_neg (by omega), if_neg (by omega),
        ih (v / 0x80) _ _ (by rw [Nat.pow_succ] at hv; omega) (by omega) (by omega)]
      congr 2
      omega
    next hle =>
      have hv : v < 128 := by omega
      simp [readVarUintLoop, toNat_ofNat_of_lt (show v < 256 by omega), hv,
        Nat.mod_eq_of_lt hv, hlt]

theorem readVarUint_reads {v : ℕ} (h : v ≤ maxSafeInteger) :
    Reads readVarUint (Encoder.varUint v) v := by
  intro rest
  have := readVarUintLoop_varUintLoop 9 v 0 1 rest
    (lt_of_le_of_lt h (by decide)) (by omega)
  rwa [Nat.zero_add, Nat.mul_one] at this

theorem readVarUint8Array_reads {s : Bytes} (h : s.length ≤ maxSafeInteger) :
    Reads readVarUint8Array (Encoder.varUint s.length ++ s) s :=
  (readVarUint_reads h).bind (Reads.checkRemaining le_rfl (readBytes_reads s))

theorem readVarString_reads {s : Bytes} (h : s.length ≤ maxSafeInteger) :
    Reads readVarString (Encoder.varUint s.length ++ s) s :=
  readVarUint8Array_reads h

theorem wrapInt64_of_le {x : ℤ} (h : -maxSafeInteger ≤ x) (h' : x ≤ maxSafeInteger) :
    wrapInt64 x = x := by
  have hm : (maxSafeInteger : ℤ) = 9007199254740991 := rfl
  exact Int.bmod_eq_of_le (by omega) (by omega)

theorem wrapInt64_natCast {n : ℕ} (h : n ≤ maxSafeInteger) : wrapInt64 n = n :=
  wrapInt64_of_le (by omega) (Int.ofNat_le.2 h)

theorem readVarIntLoop_varIntLoop (sign : ℤ) (hsign : sign = 1 ∨ sign = -1) (k m num mult : ℕ)
    (rest : Bytes) (hpos : 0 < m) (hm : m < 128 ^ k) (hsafe : num + m * mult ≤ maxSafeInteger) :
    readVarIntLoop sign (Encoder.varIntLoop k m ++ rest) num mult =
      .ok (sign * ((num + m * mult : ℕ) : ℤ), rest) := by
  induction k generalizing m num mult with
  | zero => simp at hm; omega
  | succ k ih =>
    have hsplit : m * mult = m % 0x80 * mult + m / 0x80 * (mult * 0x80) := by
      conv_lhs => rw [← Nat.mod_add_div m 0x80]
      ring
    have hnum : wrapInt64 (num + wrapInt64 ((m % 0x80 : ℕ) * mult)) =
        ((num + m % 0x80 * mult : ℕ) : ℤ) := by
      rw [← Nat.cast_mul, wrapInt64_natCast (by omega), ← Nat.cast_add,
        wrapInt64_natCast (by omega)]
    simp only [Encoder.varIntLoop, gt_iff_lt, hpos, if_true, List.cons_append, readVarIntLoop]
    by_cases hlast : 0x7F < m
    · have hbyte : (UInt8.ofNat (m % 0x80 + 0x80)).toNat = m % 0x80 + 0x80 :=
        toNat_ofNat_of_lt (by omega)
      have hmult : mult * 0x80 ≤ m / 0x80 * (mult * 0x80) :=
        Nat.le_mul_of_pos_left _ (Nat.div_pos (by omega) (by omega))
      have hwrap : wrapInt64 (mult * 0x80) = ((mult * 0x80 : ℕ) : ℤ) := by
        rw [← wrapInt64_natCast (n := mult * 0x80) (by omega), Nat.cast_mul]
        rfl
      have hmod : ((m % 0x80 + 0x80 : ℕ) : ℤ) % 0x80 = ((m % 0x80 : ℕ) : ℤ) := by omega
      rw [if_pos hlast, hbyte, hmod, hnum, hwrap, if_neg (by omega),
        if_neg (not_lt.2 (Int.ofNat_le.2 (by omega))), ih (m / 0x80) _ _ (by omega)
          (by rw [Nat.pow_succ] at hm; omega) (by omega)]
      have hval : num + m % 0x80 * mult + m / 0x80 * (mult * 0x80) = num + m * mult := by omega
      rw [hval]
    · have hm' : m < 128 := by omega
      have hbyte : (UInt8.ofNat (m % 0x80 + 0)).toNat = m % 0x80 := toNat_ofNat_of_lt (by omega)
      have hmod : ((m % 0x80 : ℕ) : ℤ) % 0x80 = ((m % 0x80 : ℕ) : ℤ) := by omega
      have hval : num + m % 0x80 * mult = num + m * mult := by rw [Nat.mod_eq_of_lt hm']
      have hdone : Encoder.varIntLoop k (m / 0x80) = [] := by
        rw [Nat.div_eq_of_lt hm']
        cases k <;> rfl
      rw [if_neg hlast, hbyte, hmod, hnum, if_pos (by omega), hval, hdone, List.nil_append,
        wrapInt64_of_le (by rcases hsign with rfl | rfl <;> omega)
          (by rcases hsign with rfl | rfl <;> omega)]

theorem readVarInt_reads {v : ℤ} (h : -maxSafeInteger ≤ v) (h' : v ≤ maxSafeInteger) :
    Reads readVarInt (Encoder.varInt v) v := by
  intro rest
  have habs : v.natAbs ≤ maxSafeInteger := by omega
  have hv : (if v < 0 then -1 else 1 : ℤ) * v.natAbs = v := by split <;> omega
  by_cases hlong : 0x3F < v.natAbs
  · have hbyte : (UInt8.ofNat (v.natAbs % 0x40 + 0x80 + if v < 0 then 0x40 else 0)).toNat =
        v.natAbs % 0x40 + 0x80 + if v < 0 then 0x40 else 0 :=
      toNat_ofNat_of_lt (by split <;> omega)
    have hsign : (v.natAbs % 0x40 + 0x80 + if v < 0 then 0x40 else 0) / 0x40 % 2 =
        if v < 0 then 1 else 0 := by split <;> omega
    have hlow : (v.natAbs % 0x40 + 0x80 + if v < 0 then 0x40 else 0) % 0x40 =
        v.natAbs % 0x40 := by split <;> omega
    have hloop := readVarIntLoop_varIntLoop (if v < 0 then -1 else 1) (by split <;> simp) 10
      (v.natAbs / 0x40) (v.natAbs % 0x40) 64 rest (by omega)
      (lt_of_le_of_lt (Nat.div_le_self ..) (lt_of_le_of_lt habs (by decide))) (by omega)
    have htotal : v.natAbs % 0x40 + v.natAbs / 0x40 * 64 = v.natAbs := by omega
    rw [htotal, hv] at hloop
    simp only [Encoder.varInt, gt_iff_lt, if_pos hlong, List.cons_append, readVarInt, hbyte,
      hsign, hlow]
    rw [if_neg (by omega)]
    by_cases hneg : v < 0
    · simpa [hneg] using hloop
    · simpa [hneg] using hloop
  · have hbyte : (UInt8.ofNat (v.natAbs % 0x40 + 0 + if v < 0 then 0x40 else 0)).toNat =
        v.natAbs % 0x40 + if v < 0 then 0x40 else 0 :=
      toNat_ofNat_of_lt (by split <;> omega)
    have hdiv : v.natAbs / 0x40 = 0 := by omega
    simp only [Encoder.varInt, gt_iff_lt, if_neg hlong, List.cons_append, readVarInt, hbyte, hdiv]
    by_cases hneg : v < 0
    · have hnum : (v.natAbs % 0x40 + 0x40) % 0x40 = v.natAbs := by omega
      simp only [hneg, if_true] at hbyte hv ⊢
      rw [if_pos (by omega), if_pos (by omega), hnum, hv]
      rfl
    · have hnum : (v.natAbs % 0x40 + 0) % 0x40 = v.natAbs := by omega
      simp only [hneg, if_false] at hbyte hv ⊢
      rw [if_pos (by omega), if_neg (by omega), hnum, hv]
      rfl

theorem varUintLoop_ne_nil (k v : ℕ) : Encoder.varUintLoop k v ≠ [] := by
  cases k with
  | zero => simp [Encoder.varUintLoop]
  | succ k => unfold Encoder.varUintLoop; split <;> simp

theorem varUint_length_pos (v : ℕ) : 0 < (Encoder.varUint v).length :=
  List.length_pos_iff.2 (varUintLoop_ne_nil 9 v)

theorem varUint_append_pos (v : ℕ) (s : Bytes) : 0 < (Encoder.varUint v ++ s).length :=
  List.length_append ▸ Nat.add_pos_left (varUint_length_pos v) _

end YCollab.Lib0
