import YCollab.Lib0.Encoder

/-!
# UTF-16 lengths of Go strings

Struct lengths of string content are JavaScript string lengths, UTF-16 code units, while a Go
string is its UTF-8 bytes, valid or not. `runes` is the sequence of runes of a
`for i, r := range s` loop: a byte that starts no valid encoding is the rune U+FFFD of width one.
`utf16Length` is `UTF16Length` of `lib0.go`.

Cutting a string between two of its runes cuts the sequence of its runes
(`runes_append_of_runes`), although a byte sequence that is no valid UTF-8 may decode differently
once bytes are added.
-/

namespace YCollab.Lib0

/-- One rune of a string: its value and the bytes that encode it. -/
structure Rune where
  val : ℕ
  bytes : Bytes
  deriving DecidableEq, Repr

/-- The number of UTF-16 code units of a rune. -/
def Rune.units (r : Rune) : ℕ := if r.val > 0xFFFF then 2 else 1

/-- A continuation byte in the given range. -/
def within (b : UInt8) (lo hi : ℕ) : Bool := lo ≤ b.toNat ∧ b.toNat ≤ hi

/-- The second-byte range that the first byte of an encoding allows. -/
def acceptRange (b0 : UInt8) : ℕ × ℕ :=
  if b0 = 0xE0 then (0xA0, 0xBF)
  else if b0 = 0xED then (0x80, 0x9F)
  else if b0 = 0xF0 then (0x90, 0xBF)
  else if b0 = 0xF4 then (0x80, 0x8F)
  else (0x80, 0xBF)

/-- The length of the encoding that the first byte announces; no encoding starts with a byte of
length zero. -/
def runeLen (b0 : UInt8) : ℕ :=
  if b0.toNat < 0x80 then 1
  else if within b0 0xC2 0xDF then 2
  else if within b0 0xE0 0xEF then 3
  else if within b0 0xF0 0xF4 then 4
  else 0

/-- The bytes after the first are continuation bytes, the second in the range the first allows. -/
def validTail (b0 : UInt8) : Bytes → Bool
  | [] => true
  | b1 :: t => within b1 (acceptRange b0).1 (acceptRange b0).2 && t.all (within · 0x80 0xBF)

/-- The value of an encoding: the payload of the first byte, then six bits a byte. -/
def runeValue (b0 : UInt8) (t : Bytes) : ℕ :=
  let base := match t.length with
    | 0 => 0
    | 1 => 0xC0
    | 2 => 0xE0
    | _ => 0xF0
  t.foldl (fun acc b => acc * 2 ^ 6 + (b.toNat - 0x80)) (b0.toNat - base)

/-- The rune at the start of `b0 :: t`, as `utf8.DecodeRuneInString` reads it: a byte that starts
no complete and valid encoding is the replacement rune U+FFFD. -/
def decodeRune (b0 : UInt8) (t : Bytes) : Rune :=
  let u := t.take (runeLen b0 - 1)
  if runeLen b0 = u.length + 1 ∧ validTail b0 u then ⟨runeValue b0 u, b0 :: u⟩
  else ⟨0xFFFD, [b0]⟩

/-- The runes of a string; `fuel` is a bound on its length. -/
def runesLoop : ℕ → Bytes → List Rune
  | 0, _ => []
  | _ + 1, [] => []
  | k + 1, b0 :: t =>
    let r := decodeRune b0 t
    r :: runesLoop k (t.drop (r.bytes.length - 1))

/-- The runes a `range` loop over the string visits. -/
def runes (s : Bytes) : List Rune := runesLoop s.length s

/-- `UTF16Length`. -/
def utf16Length (s : Bytes) : ℕ := ((runes s).map Rune.units).sum

/-! ### Cutting a string between runes -/

theorem decodeRune_bytes (b0 : UInt8) (t : Bytes) :
    ∃ u rest, (decodeRune b0 t).bytes = b0 :: u ∧ t = u ++ rest := by
  unfold decodeRune
  dsimp only
  split
  · exact ⟨_, _, rfl, (List.take_append_drop (runeLen b0 - 1) t).symm⟩
  · exact ⟨[], t, rfl, rfl⟩

/-- A rune is decoded the same way when what follows it is cut off: the decoder either looks at
no byte past the rune, or found no encoding in more bytes than are left. -/
theorem decodeRune_prefix {b0 : UInt8} {u rest rest' : Bytes}
    (h : (decodeRune b0 (u ++ rest)).bytes = b0 :: u) (hrest : rest' <+: rest) :
    decodeRune b0 (u ++ rest') = decodeRune b0 (u ++ rest) := by
  unfold decodeRune at h ⊢
  dsimp only at h ⊢
  by_cases hv : runeLen b0 = ((u ++ rest).take (runeLen b0 - 1)).length + 1 ∧
      validTail b0 ((u ++ rest).take (runeLen b0 - 1))
  · rw [if_pos hv] at h ⊢
    have hu : (u ++ rest).take (runeLen b0 - 1) = u := (List.cons.inj h).2
    have hlen : runeLen b0 - 1 = u.length := by
      have := hv.1
      rw [hu] at this
      omega
    have hu' : (u ++ rest').take (runeLen b0 - 1) = u := by rw [hlen, List.take_left']; rfl
    rw [hu] at hv ⊢
    rw [hu', if_pos hv]
  · rw [if_neg hv] at h ⊢
    obtain rfl : u = [] := by simpa using h.symm
    obtain ⟨z, rfl⟩ := hrest
    refine if_neg fun hv' => hv ?_
    -- a complete encoding in the cut-off rest is one in the whole rest
    have hlen : runeLen b0 - 1 ≤ rest'.length := by
      have := hv'.1
      simp only [List.nil_append, List.length_take] at this
      omega
    simpa [List.take_append_of_le_length hlen] using hv'

theorem runesLoop_nil (k : ℕ) : runesLoop k [] = [] := by cases k <;> rfl

theorem runesLoop_eq {k k' : ℕ} {s : Bytes} (h : s.length ≤ k) (h' : s.length ≤ k') :
    runesLoop k s = runesLoop k' s := by
  induction k generalizing k' s with
  | zero =>
    obtain rfl := List.length_eq_zero_iff.1 (Nat.le_zero.1 h)
    rw [runesLoop_nil, runesLoop_nil]
  | succ k ih =>
    cases s with
    | nil => rw [runesLoop_nil, runesLoop_nil]
    | cons b0 t =>
      cases k' with
      | zero => simp at h'
      | succ k' =>
        simp only [List.length_cons] at h h'
        simp only [runesLoop]
        exact congrArg _ (ih (by simp; omega) (by simp; omega))

@[simp] theorem runes_nil : runes [] = [] := rfl

theorem runes_cons {b0 : UInt8} {u rest : Bytes}
    (h : (decodeRune b0 (u ++ rest)).bytes = b0 :: u) :
    runes (b0 :: (u ++ rest)) = decodeRune b0 (u ++ rest) :: runes rest := by
  rw [runes, List.length_cons, runesLoop, h]
  simp only [List.length_cons, Nat.add_sub_cancel, List.drop_left]
  exact congrArg _ (runesLoop_eq (by simp) le_rfl)

theorem flatMap_runes (s : Bytes) : (runes s).flatMap Rune.bytes = s := by
  induction hn : s.length using Nat.strong_induction_on generalizing s with
  | _ n ih =>
    cases s with
    | nil => rfl
    | cons b0 t =>
      obtain ⟨u, rest, hbytes, rfl⟩ := decodeRune_bytes b0 t
      rw [runes_cons hbytes, List.flatMap_cons, hbytes, ih rest.length _ rest rfl]
      · simp
      · simp only [← hn, List.length_cons, List.length_append]
        omega

theorem runes_append_of_runes {s : Bytes} {rs rs' : List Rune} (h : runes s = rs ++ rs') :
    runes (rs.flatMap Rune.bytes) = rs ∧ runes (rs'.flatMap Rune.bytes) = rs' := by
  induction rs generalizing s with
  | nil => exact ⟨rfl, by rw [← List.nil_append rs', ← h, flatMap_runes]⟩
  | cons r rs ih =>
    cases s with
    | nil => simp at h
    | cons b0 t =>
      obtain ⟨u, rest, hbytes, rfl⟩ := decodeRune_bytes b0 t
      rw [runes_cons hbytes, List.cons_append, List.cons.injEq] at h
      obtain ⟨rfl, hrest⟩ := h
      obtain ⟨hhead, htail⟩ := ih hrest
      refine ⟨?_, htail⟩
      have hcut : rs.flatMap Rune.bytes <+: rest := by
        rw [← flatMap_runes rest, hrest, List.flatMap_append]
        exact List.prefix_append ..
      have hdec := decodeRune_prefix hbytes hcut
      rw [List.flatMap_cons, hbytes, List.cons_append,
        runes_cons (by rw [hdec, hbytes]), hdec, hhead]

end YCollab.Lib0
