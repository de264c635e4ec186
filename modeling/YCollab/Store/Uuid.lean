import Mathlib.Data.Set.Function
import YCollab.Lib0.Encoder

/-!
# Document ids

`internal/store/uuid.go`: a room name becomes the id its document is stored under. A name that
reads as a UUID is taken as one, every other name is hashed (`documentID`).

`encoding/hex` reads both cases of a letter and writes the lower one, so reading forgets exactly
the case: `parseUUID_eq_some_iff` says that a name reads as `u` if and only if its lower-case
form is the text of `u`. From it follows which sets of names have one id for each name
(`documentID_injOn_iff`): no two of them are the same UUID in different case, and none of them
is the text of another one's hash.

SHA-1 is not part of the repository; it is a parameter (`Sha1`) that gives twenty bytes.
-/

namespace YCollab.Store

/-! ### Hexadecimal text -/

/-- `fromHexChar` of `encoding/hex`: the value of a digit in either case. -/
def fromHexChar (c : UInt8) : Option ℕ :=
  if 0x30 ≤ c ∧ c ≤ 0x39 then some (c - 0x30).toNat
  else if 0x61 ≤ c ∧ c ≤ 0x66 then some ((c - 0x61).toNat + 10)
  else if 0x41 ≤ c ∧ c ≤ 0x46 then some ((c - 0x41).toNat + 10)
  else none

/-- `hex.Decode`: two digits to a byte. -/
def hexDecode : Bytes → Option Bytes
  | [] => some []
  | [_] => none
  | a :: b :: s => do
    let x ← fromHexChar a
    let y ← fromHexChar b
    let l ← hexDecode s
    pure (UInt8.ofNat (16 * x + y) :: l)

/-- The lower-case digit of a value. -/
def hexDigit (x : ℕ) : UInt8 := if x < 10 then 0x30 + UInt8.ofNat x else 0x57 + UInt8.ofNat x

/-- `hex.Encode`. -/
def hexEncode (b : Bytes) : Bytes :=
  b.flatMap fun x => [hexDigit (x.toNat / 16), hexDigit (x.toNat % 16)]

/-- The hexadecimal letter `c` in lower case; any other byte as it is. -/
def lowerHex (c : UInt8) : UInt8 := if 0x41 ≤ c ∧ c ≤ 0x46 then c + 0x20 else c

/-- A text with its hexadecimal letters in lower case. -/
def lower (s : Bytes) : Bytes := s.map lowerHex

theorem fromHexChar_eq_some_iff {c : UInt8} {x : ℕ} :
    fromHexChar c = some x ↔ x < 16 ∧ lowerHex c = hexDigit x := by
  have hlt : ∀ n : Fin 256, ∀ x ∈ fromHexChar (UInt8.ofFin n), x < 16 := by
    decide +kernel
  have hall : ∀ n : Fin 256, ∀ x : Fin 16,
      fromHexChar (UInt8.ofFin n) = some x.1 ↔ lowerHex (UInt8.ofFin n) = hexDigit x.1 := by
    decide +kernel
  have hc : UInt8.ofFin c.toFin = c := rfl
  constructor
  · intro h
    have hx : x < 16 := hlt c.toFin x h
    exact ⟨hx, (hall c.toFin ⟨x, hx⟩).1 h⟩
  · rintro ⟨hx, h⟩
    exact (hall c.toFin ⟨x, hx⟩).2 h

theorem lowerHex_eq_dash {c : UInt8} : lowerHex c = 0x2d ↔ c = 0x2d := by
  have hall : ∀ n : Fin 256, lowerHex (UInt8.ofFin n) = 0x2d ↔ UInt8.ofFin n = 0x2d := by
    decide +kernel
  exact hall c.toFin

theorem hexEncode_cons (x : UInt8) (b : Bytes) :
    hexEncode (x :: b) = hexDigit (x.toNat / 16) :: hexDigit (x.toNat % 16) :: hexEncode b := rfl

theorem hexEncode_length (b : Bytes) : (hexEncode b).length = 2 * b.length := by
  induction b with
  | nil => rfl
  | cons x b ih => simp only [hexEncode_cons, List.length_cons, ih]; omega

/-- Reading hexadecimal text forgets the case of its letters and nothing else. -/
theorem hexDecode_eq_some_iff {s b : Bytes} : hexDecode s = some b ↔ lower s = hexEncode b := by
  induction s using hexDecode.induct generalizing b with
  | case1 =>
    cases b with
    | nil => simp [hexDecode, lower, hexEncode]
    | cons x b => simp [hexDecode, lower, hexEncode_cons]
  | case2 c =>
    have hne : lower [c] ≠ hexEncode b := by
      intro h
      have := congrArg List.length h
      rw [hexEncode_length] at this
      simp only [lower, List.length_map, List.length_singleton] at this
      omega
    simp [hexDecode, hne]
  | case3 a c s ih =>
    have hlow : lower (a :: c :: s) = lowerHex a :: lowerHex c :: lower s := rfl
    simp only [hexDecode, Option.bind_eq_bind, Option.pure_def, Option.bind_eq_some_iff, hlow,
      Option.some.injEq]
    constructor
    · rintro ⟨x, hx, y, hy, l, hl, rfl⟩
      obtain ⟨hx16, hx⟩ := fromHexChar_eq_some_iff.1 hx
      obtain ⟨hy16, hy⟩ := fromHexChar_eq_some_iff.1 hy
      have hn : (UInt8.ofNat (16 * x + y)).toNat = 16 * x + y := by
        simp only [UInt8.toNat_ofNat']
        omega
      rw [hexEncode_cons, hn, hx, hy, ih.1 hl]
      congr 3 <;> omega
    · intro h
      cases b with
      | nil => simp [hexEncode] at h
      | cons x b =>
        have hx := x.toNat_lt
        rw [hexEncode_cons, List.cons.injEq, List.cons.injEq] at h
        refine ⟨x.toNat / 16, fromHexChar_eq_some_iff.2 ⟨by omega, h.1⟩, x.toNat % 16,
          fromHexChar_eq_some_iff.2 ⟨by omega, h.2.1⟩, b, ih.2 h.2.2, ?_⟩
        rw [Nat.div_add_mod]
        simp

theorem hexDecode_length {s b : Bytes} (h : hexDecode s = some b) : s.length = 2 * b.length := by
  have hlen := congrArg List.length (hexDecode_eq_some_iff.1 h)
  rwa [hexEncode_length, lower, List.length_map] at hlen

/-! ### UUIDs -/

/-- `UUID`: sixteen bytes. -/
@[ext] structure UUID where
  /-- The bytes, in the order of the text. -/
  bytes : Bytes
  /-- There are sixteen of them. -/
  size : bytes.length = 16
  deriving DecidableEq

/-- The part of a text between two positions, a slice `s[i:j]` of the source. -/
def slice (s : Bytes) (i j : ℕ) : Bytes := (s.drop i).take (j - i)

/-- The groups of the 8-4-4-4-12 form, decoded and put together. -/
def parseGroups (s : Bytes) : Option Bytes := do
  if s.length ≠ 36 ∨ s[8]? ≠ some 0x2d ∨ s[13]? ≠ some 0x2d ∨ s[18]? ≠ some 0x2d
      ∨ s[23]? ≠ some 0x2d then
    none
  else
    let g₀ ← hexDecode (slice s 0 8)
    let g₁ ← hexDecode (slice s 9 13)
    let g₂ ← hexDecode (slice s 14 18)
    let g₃ ← hexDecode (slice s 19 23)
    let g₄ ← hexDecode (slice s 24 36)
    pure (g₀ ++ (g₁ ++ (g₂ ++ (g₃ ++ g₄))))

/-- The text of sixteen bytes, `UUID.String`. -/
def groupText (b : Bytes) : Bytes :=
  hexEncode (slice b 0 4) ++ 0x2d :: (hexEncode (slice b 4 6) ++ 0x2d ::
    (hexEncode (slice b 6 8) ++ 0x2d :: (hexEncode (slice b 8 10) ++ 0x2d ::
      hexEncode (slice b 10 16))))

theorem slice_length {s : Bytes} {i j : ℕ} (h : j ≤ s.length) (hij : i ≤ j) :
    (slice s i j).length = j - i := by
  simp only [slice, List.length_take, List.length_drop]
  omega

theorem eq_groups {s : Bytes} (h : s.length = 36) : ∃ c₀ c₁ c₂ c₃,
    s[8]? = some c₀ ∧ s[13]? = some c₁ ∧ s[18]? = some c₂ ∧ s[23]? = some c₃ ∧
    s = slice s 0 8 ++ c₀ :: (slice s 9 13 ++ c₁ :: (slice s 14 18 ++ c₂ ::
      (slice s 19 23 ++ c₃ :: slice s 24 36))) := by
  -- one group and the byte after it
  have hcut : ∀ i j (hj : j < 36), i ≤ j →
      s.drop i = slice s i j ++ s.get ⟨j, h ▸ hj⟩ :: s.drop (j + 1) := by
    intro i j hj hij
    rw [slice, List.get_eq_getElem, List.getElem_cons_drop]
    have := List.take_append_drop (j - i) (s.drop i)
    rwa [List.drop_drop, Nat.add_sub_of_le hij, eq_comm] at this
  refine ⟨_, _, _, _, List.getElem?_eq_getElem (by omega), List.getElem?_eq_getElem (by omega),
    List.getElem?_eq_getElem (by omega), List.getElem?_eq_getElem (by omega), ?_⟩
  have hlast : s.drop 24 = slice s 24 36 := by
    rw [slice, List.take_of_length_le]
    simp [h]
  have h0 := hcut 0 8 (by omega) (by omega)
  rw [hcut 9 13 (by omega) (by omega), hcut 14 18 (by omega) (by omega),
    hcut 19 23 (by omega) (by omega), hlast] at h0
  exact h0

theorem lower_append (a b : Bytes) : lower (a ++ b) = lower a ++ lower b := List.map_append

theorem lower_cons (c : UInt8) (s : Bytes) : lower (c :: s) = lowerHex c :: lower s := rfl

theorem lower_length (s : Bytes) : (lower s).length = s.length := List.length_map ..

theorem slice_groups {g₀ g₁ g₂ g₃ g₄ : Bytes} (h₀ : g₀.length = 4) (h₁ : g₁.length = 2)
    (h₂ : g₂.length = 2) (h₃ : g₃.length = 2) (h₄ : g₄.length = 6) :
    groupText (g₀ ++ (g₁ ++ (g₂ ++ (g₃ ++ g₄)))) =
      hexEncode g₀ ++ 0x2d :: (hexEncode g₁ ++ 0x2d :: (hexEncode g₂ ++ 0x2d ::
        (hexEncode g₃ ++ 0x2d :: hexEncode g₄))) := by
  simp [groupText, slice, List.drop_append, h₀, h₁, h₂, h₃, h₄,
    List.take_of_length_le, List.drop_eq_nil_of_le]

theorem parseGroups_eq_some {s b : Bytes} (h : parseGroups s = some b) :
    b.length = 16 ∧ lower s = groupText b := by
  unfold parseGroups at h
  split at h
  · cases h
  next hs =>
    push Not at hs
    obtain ⟨hlen, d₀, d₁, d₂, d₃⟩ := hs
    obtain ⟨c₀, c₁, c₂, c₃, e₀, e₁, e₂, e₃, hcut⟩ := eq_groups hlen
    simp only [Option.bind_eq_bind, Option.pure_def, Option.bind_eq_some_iff,
      Option.some.injEq] at h
    obtain ⟨g₀, h₀, g₁, h₁, g₂, h₂, g₃, h₃, g₄, h₄, rfl⟩ := h
    have l₀ := hexDecode_length h₀
    have l₁ := hexDecode_length h₁
    have l₂ := hexDecode_length h₂
    have l₃ := hexDecode_length h₃
    have l₄ := hexDecode_length h₄
    rw [slice_length (by omega) (by omega)] at l₀ l₁ l₂ l₃ l₄
    refine ⟨by simp only [List.length_append]; omega, ?_⟩
    rw [slice_groups (by omega) (by omega) (by omega) (by omega) (by omega), hcut]
    obtain rfl : c₀ = 0x2d := Option.some.inj (e₀.symm.trans d₀)
    obtain rfl : c₁ = 0x2d := Option.some.inj (e₁.symm.trans d₁)
    obtain rfl : c₂ = 0x2d := Option.some.inj (e₂.symm.trans d₂)
    obtain rfl : c₃ = 0x2d := Option.some.inj (e₃.symm.trans d₃)
    simp only [lower_append, lower_cons, hexDecode_eq_some_iff.1 h₀, hexDecode_eq_some_iff.1 h₁,
      hexDecode_eq_some_iff.1 h₂, hexDecode_eq_some_iff.1 h₃, hexDecode_eq_some_iff.1 h₄,
      lowerHex_eq_dash.2]

/-- `ParseUUID`. -/
def parseUUID (s : Bytes) : Option UUID :=
  match h : parseGroups s with
  | some b => some ⟨b, (parseGroups_eq_some h).1⟩
  | none => none

/-- `UUID.String`. -/
def UUID.string (u : UUID) : Bytes := groupText u.bytes

theorem parseUUID_bytes (s : Bytes) : (parseUUID s).map UUID.bytes = parseGroups s := by
  unfold parseUUID
  split <;> simp [*]

theorem groupText_length {b : Bytes} (h : b.length = 16) : (groupText b).length = 36 := by
  simp [groupText, hexEncode_length, slice, h]

theorem slice_append {b : Bytes} {i j k : ℕ} (hij : i ≤ j) (hjk : j ≤ k) :
    slice b i j ++ slice b j k = slice b i k := by
  have hk : k - i = (j - i) + (k - j) := by omega
  rw [slice, slice, slice, hk, List.take_add, List.drop_drop, Nat.add_sub_of_le hij]

/-- One group of a text in lower case and the byte after it, compared with a group that was
written. -/
theorem lower_group {g b t t' : Bytes} {c : UInt8} (hlen : g.length = 2 * b.length)
    (h : lower g ++ lowerHex c :: t = hexEncode b ++ 0x2d :: t') :
    hexDecode g = some b ∧ c = 0x2d ∧ t = t' := by
  obtain ⟨hg, h⟩ := List.append_inj h (by rw [lower_length, hexEncode_length, hlen])
  obtain ⟨hc, ht⟩ := List.cons.inj h
  exact ⟨hexDecode_eq_some_iff.2 hg, lowerHex_eq_dash.1 hc, ht⟩

theorem parseGroups_of_lower {s b : Bytes} (hb : b.length = 16) (h : lower s = groupText b) :
    parseGroups s = some b := by
  have hs : s.length = 36 := by rw [← lower_length, h, groupText_length hb]
  obtain ⟨c₀, c₁, c₂, c₃, e₀, e₁, e₂, e₃, hcut⟩ := eq_groups hs
  have hlen : ∀ i j i' j', j ≤ 36 ∧ i ≤ j ∧ j' ≤ 16 ∧ i' ≤ j' ∧ j - i = 2 * (j' - i') →
      (slice s i j).length = 2 * (slice b i' j').length := by
    rintro i j i' j' ⟨hj, hij, hj', hij', heq⟩
    rw [slice_length (by omega) hij, slice_length (by omega) hij', heq]
  rw [hcut] at h
  simp only [lower_append, lower_cons, groupText] at h
  obtain ⟨h₀, rfl, t₀⟩ := lower_group (hlen 0 8 0 4 (by decide)) h
  obtain ⟨h₁, rfl, t₁⟩ := lower_group (hlen 9 13 4 6 (by decide)) t₀
  obtain ⟨h₂, rfl, t₂⟩ := lower_group (hlen 14 18 6 8 (by decide)) t₁
  obtain ⟨h₃, rfl, h₄⟩ := lower_group (hlen 19 23 8 10 (by decide)) t₂
  have hjoin : slice b 0 4 ++ (slice b 4 6 ++ (slice b 6 8 ++ (slice b 8 10 ++ slice b 10 16))) =
      b := by
    rw [slice_append (by omega) (by omega), slice_append (by omega) (by omega),
      slice_append (by omega) (by omega), slice_append (by omega) (by omega)]
    exact List.take_of_length_le hb.le
  have hdash : ¬(s.length ≠ 36 ∨ s[8]? ≠ some 0x2d ∨ s[13]? ≠ some 0x2d ∨ s[18]? ≠ some 0x2d
      ∨ s[23]? ≠ some 0x2d) := by
    simp only [hs, e₀, e₁, e₂, e₃, ne_eq, not_true_eq_false, or_self, not_false_eq_true]
  rw [parseGroups, if_neg hdash, h₀, h₁, h₂, h₃, hexDecode_eq_some_iff.2 h₄]
  exact congrArg some hjoin

/-- **A name reads as `u` if and only if it is the text of `u`, in any mixture of cases.** -/
theorem parseUUID_eq_some_iff {s : Bytes} {u : UUID} :
    parseUUID s = some u ↔ lower s = u.string := by
  have hiff : parseUUID s = some u ↔ parseGroups s = some u.bytes := by
    rw [← parseUUID_bytes]
    constructor
    · intro h; rw [h]; rfl
    · intro h
      obtain ⟨v, hv, hb⟩ := Option.map_eq_some_iff.1 h
      rw [hv, UUID.ext hb]
  rw [hiff]
  exact ⟨fun h => (parseGroups_eq_some h).2, parseGroups_of_lower u.size⟩

/-! ### Names -/

/-- A SHA-1: twenty bytes for every input. -/
structure Sha1 where
  /-- The digest. -/
  sum : Bytes → Bytes
  /-- It has twenty bytes. -/
  size : ∀ b, (sum b).length = 20

/-- `NilUUID`: the owner of a document that has none. -/
def nilUUID : UUID := ⟨List.replicate 16 0, rfl⟩

/-- `documentNamespace`. -/
def documentNamespace : UUID :=
  ⟨[0x5f, 0x2b, 0x9a, 0x1e, 0x7c, 0x64, 0x4d, 0x8f,
    0xa3, 0x11, 0x0e, 0x6d, 0xc2, 0x84, 0xb7, 0x59], rfl⟩

/-- `ownerNamespace`. -/
def ownerNamespace : UUID :=
  ⟨[0xb7, 0x3c, 0x41, 0xd8, 0x0a, 0x9f, 0x4e, 0x26,
    0x8c, 0x5d, 0x92, 0xf0, 0x17, 0x6b, 0xe3, 0xa4], rfl⟩

variable (sha1 : Sha1)

/-- `uuidV5`: the first sixteen bytes of the digest with the version and the variant written
over them. -/
def uuidV5 (ns : UUID) (name : Bytes) : UUID where
  bytes :=
    (((sha1.sum (ns.bytes ++ name)).take 16).modify 6 fun b => (b &&& 0x0f) ||| 0x50).modify 8
      fun b => (b &&& 0x3f) ||| 0x80
  size := by simp [sha1.size]

/-- `DocumentID`. -/
def documentID (name : Bytes) : UUID :=
  match parseUUID name with
  | some id => id
  | none => uuidV5 sha1 documentNamespace name

/-- `OwnerID`. -/
def ownerID (tenant : Bytes) : UUID :=
  if tenant = [] then nilUUID
  else
    match parseUUID tenant with
    | some id => id
    | none => uuidV5 sha1 ownerNamespace tenant

/-- The names are told apart by what they spell: no two of them are one UUID written in
different cases, and none is the text of the id another one is hashed to. -/
structure Unambiguous (names : Set Bytes) : Prop where
  /-- A UUID is among the names in one spelling only. -/
  spelling : ∀ a ∈ names, ∀ b ∈ names, (parseUUID a).isSome → lower a = lower b → a = b
  /-- No name spells the hash of a name that is hashed. -/
  hashed : ∀ a ∈ names, ∀ b ∈ names, parseUUID b = none →
    lower a ≠ (uuidV5 sha1 documentNamespace b).string

variable {sha1} {names : Set Bytes} {name : Bytes}

theorem documentID_of_parse {u : UUID} (h : parseUUID name = some u) :
    documentID sha1 name = u := by
  rw [documentID, h]

theorem documentID_of_hash (h : parseUUID name = none) :
    documentID sha1 name = uuidV5 sha1 documentNamespace name := by
  rw [documentID, h]

/-- **Names have an id each exactly when they are told apart by what they spell**, if the hash
tells them apart. -/
theorem documentID_injOn_iff (hsha : Set.InjOn (uuidV5 sha1 documentNamespace) names) :
    Set.InjOn (documentID sha1) names ↔ Unambiguous sha1 names := by
  constructor
  · intro hinj
    refine ⟨fun a ha b hb hparse hlow => ?_, fun a ha b hb hhash hlow => ?_⟩
    · obtain ⟨u, hu⟩ := Option.isSome_iff_exists.1 hparse
      have hb' : parseUUID b = some u := by
        rw [parseUUID_eq_some_iff, ← hlow]
        exact parseUUID_eq_some_iff.1 hu
      exact hinj ha hb (by rw [documentID_of_parse hu, documentID_of_parse hb'])
    · have ha' := parseUUID_eq_some_iff.2 hlow
      have hab := hinj ha hb (by rw [documentID_of_parse ha', documentID_of_hash hhash])
      rw [hab, hhash] at ha'
      cases ha'
  · intro h a ha b hb hid
    cases hpa : parseUUID a with
    | some u =>
      rw [documentID_of_parse hpa] at hid
      cases hpb : parseUUID b with
      | some v =>
        rw [documentID_of_parse hpb] at hid
        subst hid
        refine h.spelling a ha b hb (by simp [hpa]) ?_
        rw [parseUUID_eq_some_iff.1 hpa, parseUUID_eq_some_iff.1 hpb]
      | none =>
        rw [documentID_of_hash hpb] at hid
        subst hid
        exact absurd (parseUUID_eq_some_iff.1 hpa) (h.hashed a ha b hb hpb)
    | none =>
      rw [documentID_of_hash hpa] at hid
      cases hpb : parseUUID b with
      | some v =>
        rw [documentID_of_parse hpb] at hid
        subst hid
        exact absurd (parseUUID_eq_some_iff.1 hpb) (h.hashed b hb a ha hpa)
      | none =>
        rw [documentID_of_hash hpb] at hid
        exact hsha ha hb hid

end YCollab.Store
