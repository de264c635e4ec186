import Mathlib.Data.List.GetD
import YCollab.Crdt.Struct

/-!
# Cutting content and items

A cut of a content after `k` units gives two contents of `k` and `len - k` units
(`Content.splice_len`). It fails only inside a surrogate pair, that is in front of a unit that is
the low half of a rune beyond the basic plane (`Content.lowAt`): everywhere else content longer than
one unit can be cut (`Content.splice_isOk`), and each unit is in its half what it was before
(`Content.Cut`). An item is cut with its content; `Item.Piece` relates an item to what repeated
cuts make of it.
-/

namespace YCollab.Crdt

open Lib0

/-- The UTF-16 code units of a sequence of runes. -/
def unitsOf (rs : List Rune) : ℕ := (rs.map Rune.units).sum

/-- For each code unit, whether it is the low half of a surrogate pair. -/
def lows (rs : List Rune) : List Bool :=
  rs.flatMap fun r => if r.val > 0xFFFF then [false, true] else [false]

/-- Whether unit `i` is the low half of a surrogate pair. -/
def Content.lowAt : Content → ℕ → Bool
  | .string s, i => (lows (runes s)).getD i false
  | _, _ => false

/-- Whether the content is a nested type. -/
def Content.isType : Content → Bool
  | .type _ _ => true
  | _ => false

@[simp] theorem unitsOf_nil : unitsOf [] = 0 := rfl

@[simp] theorem unitsOf_cons (r : Rune) (rs : List Rune) : unitsOf (r :: rs) = r.units + unitsOf rs :=
  rfl

@[simp] theorem unitsOf_append (rs rs' : List Rune) :
    unitsOf (rs ++ rs') = unitsOf rs + unitsOf rs' := by
  simp [unitsOf]

theorem Rune.units_pos (r : Rune) : 0 < r.units := by
  unfold Rune.units
  split <;> omega

@[simp] theorem lows_append (rs rs' : List Rune) : lows (rs ++ rs') = lows rs ++ lows rs' := by
  simp [lows]

@[simp] theorem length_lows (rs : List Rune) : (lows rs).length = unitsOf rs := by
  induction rs with
  | nil => rfl
  | cons r rs ih =>
    rw [unitsOf_cons, ← ih]
    unfold lows Rune.units
    rw [List.flatMap_cons, List.length_append]
    split <;> rfl

/-- Wherever a unit is not the second half of a rune, the runes can be cut before it. -/
theorem exists_append_of_lows {rs : List Rune} {k : ℕ} (hk : k ≤ unitsOf rs)
    (hlow : (lows rs).getD k false = false) : ∃ rs₁ rs₂, rs = rs₁ ++ rs₂ ∧ unitsOf rs₁ = k := by
  induction rs generalizing k with
  | nil => exact ⟨[], [], rfl, (Nat.le_zero.1 hk).symm⟩
  | cons r rs ih =>
    by_cases h0 : k = 0
    · exact ⟨[], r :: rs, rfl, h0.symm⟩
    have hr : r.units ≤ k := by
      unfold Rune.units
      split
      next hwide =>
        -- the only unit inside a wide rune is its low half
        by_contra hlt
        obtain rfl : k = 1 := by omega
        simp [lows, hwide] at hlow
      next => omega
    have hlen : (lows [r]).length = r.units := by simp
    obtain ⟨rs₁, rs₂, rfl, hunits⟩ := ih (k := k - r.units) (by simp at hk; omega) (by
      rw [← List.singleton_append, lows_append, List.getD_append_right _ _ _ _ (by omega), hlen]
        at hlow
      exact hlow)
    exact ⟨r :: rs₁, rs₂, rfl, by simp; omega⟩

theorem splitLoop_append (rs₁ rs₂ : List Rune) (units : ℕ) (head : Bytes) :
    splitLoop (units + unitsOf rs₁) (rs₁ ++ rs₂) units head =
      some (head ++ rs₁.flatMap Rune.bytes, rs₂.flatMap Rune.bytes) := by
  induction rs₁ generalizing units head with
  | nil => cases rs₂ <;> simp [splitLoop]
  | cons r rs₁ ih =>
    have hpos := Rune.units_pos r
    have h := ih (units + r.units) (head ++ r.bytes)
    rw [Nat.add_assoc] at h
    simp only [List.cons_append, splitLoop, unitsOf_cons]
    rw [if_neg (by omega), if_neg (by omega), h]
    simp

theorem splitLoop_some {n : ℕ} {rs : List Rune} {units : ℕ} {head h t : Bytes}
    (hs : splitLoop n rs units head = some (h, t)) :
    ∃ rs₁ rs₂, rs = rs₁ ++ rs₂ ∧ units + unitsOf rs₁ = n ∧ h = head ++ rs₁.flatMap Rune.bytes ∧
      t = rs₂.flatMap Rune.bytes := by
  induction rs generalizing units head with
  | nil =>
    simp only [splitLoop] at hs
    split at hs
    · cases hs
      exact ⟨[], [], rfl, by simpa, by simp, rfl⟩
    · cases hs
  | cons r rs ih =>
    simp only [splitLoop] at hs
    split at hs
    · cases hs
      exact ⟨[], r :: rs, rfl, by simpa, by simp, rfl⟩
    · split at hs
      · cases hs
      · obtain ⟨rs₁, rs₂, rfl, hn, rfl, rfl⟩ := ih hs
        exact ⟨r :: rs₁, rs₂, rfl, by simp; omega, by simp, rfl⟩

theorem splitUTF16_some {s h t : Bytes} {k : ℕ} (hs : splitUTF16 s k = some (h, t)) :
    runes s = runes h ++ runes t ∧ unitsOf (runes h) = k := by
  unfold splitUTF16 at hs
  split at hs
  next h0 =>
    cases hs
    simp [h0]
  next =>
    obtain ⟨rs₁, rs₂, hrs, hn, hh, rfl⟩ := splitLoop_some hs
    rw [List.nil_append] at hh
    obtain ⟨h₁, h₂⟩ := runes_append_of_runes hrs
    rw [hh, h₁, h₂]
    exact ⟨hrs, by simpa using hn⟩

theorem splitUTF16_isSome {s : Bytes} {k : ℕ} (hk : k ≤ utf16Length s)
    (hlow : (Content.string s).lowAt k = false) : ∃ h t, splitUTF16 s k = some (h, t) := by
  unfold splitUTF16
  split
  · exact ⟨_, _, rfl⟩
  · obtain ⟨rs₁, rs₂, hrs, rfl⟩ := exists_append_of_lows hk hlow
    rw [hrs]
    have := splitLoop_append rs₁ rs₂ 0 []
    rw [Nat.zero_add] at this
    exact ⟨_, _, this⟩

theorem Content.lowAt_zero (c : Content) : c.lowAt 0 = false := by
  cases c with
  | string s =>
    simp only [lowAt]
    cases runes s with
    | nil => rfl
    | cons r rs =>
      unfold lows
      rw [List.flatMap_cons]
      split <;> rfl
  | _ => rfl

/-- The low half of a pair is behind the high half of the same character. -/
theorem lows_getD_iff {rs : List Rune} {n : ℕ} : (lows rs).getD n false = true ↔
    ∃ rs₁ r rs₂, rs = rs₁ ++ r :: rs₂ ∧ r.val > 0xFFFF ∧ unitsOf rs₁ + 1 = n := by
  constructor
  · intro h
    induction rs generalizing n with
    | nil => cases h
    | cons r rs ih =>
      rw [← List.singleton_append, lows_append] at h
      by_cases hn : n < (lows [r]).length
      · rw [List.getD_append _ _ _ _ hn] at h
        by_cases hwide : r.val > 0xFFFF
        · obtain _ | _ | n := n
          · simp [lows, hwide] at h
          · exact ⟨[], r, rs, rfl, hwide, rfl⟩
          · simp only [length_lows, unitsOf_cons, Rune.units, if_pos hwide, unitsOf_nil] at hn
            omega
        · obtain rfl : n = 0 := by
            simp only [length_lows, unitsOf_cons, Rune.units, if_neg hwide, unitsOf_nil] at hn
            omega
          simp [lows, hwide] at h
      · rw [List.getD_append_right _ _ _ _ (by omega)] at h
        obtain ⟨rs₁, r', rs₂, rfl, hwide, hunits⟩ := ih h
        refine ⟨r :: rs₁, r', rs₂, rfl, hwide, ?_⟩
        have hlen : (lows [r]).length = r.units := by simp
        rw [unitsOf_cons]
        omega
  · rintro ⟨rs₁, r, rs₂, rfl, hwide, rfl⟩
    rw [lows_append, List.getD_append_right _ _ _ _ (by simp), length_lows, Nat.add_sub_cancel_left]
    simp [lows, hwide]

theorem splitUTF16_eq_none_iff {s : Bytes} {n : ℕ} (hn : n ≤ utf16Length s) :
    splitUTF16 s n = none ↔ (Content.string s).lowAt n = true := by
  constructor
  · intro hnone
    by_contra hlow
    obtain ⟨h, t, hs⟩ := splitUTF16_isSome hn (Bool.not_eq_true _ ▸ hlow)
    cases hnone.symm.trans hs
  · intro hlow
    by_contra hsome
    obtain ⟨⟨h, t⟩, hs⟩ := Option.ne_none_iff_exists'.1 hsome
    obtain ⟨hrs, hunits⟩ := splitUTF16_some hs
    -- the cut is between two runes, and no rune starts with a low half
    rw [Content.lowAt, hrs, lows_append, List.getD_append_right _ _ _ _ (by simp [hunits]),
      length_lows, hunits, Nat.sub_self] at hlow
    cases hlow.symm.trans (Content.string t).lowAt_zero

/-- **Splitting agrees with the length**: the two parts are the string, of `n` units and the rest,
and there are none exactly when the cut is between the two units of a character above U+FFFF. -/
theorem splitUTF16_spec {s : Bytes} {n : ℕ} (hn : n ≤ utf16Length s) :
    (∀ h t, splitUTF16 s n = some (h, t) →
      h ++ t = s ∧ utf16Length h = n ∧ utf16Length t = utf16Length s - n) ∧
    (splitUTF16 s n = none ↔ ∃ rs r rs', runes s = rs ++ r :: rs' ∧ r.val > 0xFFFF ∧
      (rs.map Rune.units).sum + 1 = n) := by
  refine ⟨fun h t hs => ?_, (splitUTF16_eq_none_iff hn).trans lows_getD_iff⟩
  obtain ⟨hrs, hunits⟩ := splitUTF16_some hs
  have hlen : utf16Length s = utf16Length h + utf16Length t := by
    simp only [utf16Length, hrs, List.map_append, List.sum_append]
  have hh : utf16Length h = n := hunits
  refine ⟨?_, hh, by omega⟩
  rw [← flatMap_runes s, hrs, List.flatMap_append, flatMap_runes, flatMap_runes]

/-- An `a`, a byte that is not UTF-8, and an emoji: the cut after three units is inside it. -/
theorem splitUTF16_spec_emoji : let s : Bytes := [97, 255, 240, 159, 142, 137]
    utf16Length s = 4 ∧ splitUTF16 s 2 = some ([97, 255], [240, 159, 142, 137]) ∧
    splitUTF16 s 3 = none := by
  refine ⟨by decide, by decide, (splitUTF16_spec (by decide)).2.2 ?_⟩
  exact ⟨[⟨97, [97]⟩, ⟨0xFFFD, [255]⟩], ⟨0x1F389, [240, 159, 142, 137]⟩, [], by decide, by decide,
    rfl⟩

namespace Content

variable {c h t : Content} {k : ℕ}

theorem len_of_isType (h : c.isType = true) : c.len = 1 := by
  cases c with
  | type r name => rfl
  | _ => cases h

theorem splice_isOk (h0 : 0 < k) (hk : k < c.len) (hlow : c.lowAt k = false) :
    ∃ h t, c.splice k = .ok (h, t) := by
  cases c with
  | deleted n => exact ⟨_, _, rfl⟩
  | json values => exact ⟨_, _, rfl⟩
  | any values => exact ⟨_, _, rfl⟩
  | string s =>
    obtain ⟨h, t, hs⟩ := splitUTF16_isSome hk.le hlow
    exact ⟨.string h, .string t, by simp [splice, hs]⟩
  | _ => simp [len] at hk; omega

/-- The halves of a cut: their lengths, and what each unit is. -/
structure Cut (c h t : Content) (k : ℕ) : Prop where
  len_head : h.len = k
  len_tail : t.len = c.len - k
  low_head : ∀ i < k, h.lowAt i = c.lowAt i
  low_tail : ∀ i, t.lowAt i = c.lowAt (k + i)
  type_head : h.isType = c.isType
  type_tail : t.isType = c.isType
  deleted_head : h.isDeleted = c.isDeleted
  deleted_tail : t.isDeleted = c.isDeleted

theorem splice_cut (hs : c.splice k = .ok (h, t)) (hk : k ≤ c.len) : Cut c h t k := by
  cases c with
  | deleted n =>
    cases hs
    exact ⟨rfl, rfl, fun _ _ => rfl, fun _ => rfl, rfl, rfl, rfl, rfl⟩
  | json values =>
    cases hs
    exact ⟨by simpa [len] using hk, by simp [len], fun _ _ => rfl, fun _ => rfl, rfl, rfl, rfl, rfl⟩
  | any values =>
    cases hs
    exact ⟨by simpa [len] using hk, by simp [len], fun _ _ => rfl, fun _ => rfl, rfl, rfl, rfl, rfl⟩
  | string s =>
    simp only [splice] at hs
    split at hs
    next h' t' hs' =>
      cases hs
      obtain ⟨hrs, hunits⟩ := splitUTF16_some hs'
      have hlen : (lows (runes h')).length = k := by simp [hunits]
      refine ⟨hunits, ?_, fun i hi => ?_, fun i => ?_, rfl, rfl, rfl, rfl⟩
      · simp only [len, utf16Length, ← unitsOf.eq_1, hrs, unitsOf_append, hunits]
        omega
      · simp only [lowAt, hrs, lows_append]
        rw [List.getD_append _ _ _ _ (by omega)]
      · simp only [lowAt, hrs, lows_append]
        rw [List.getD_append_right _ _ _ _ (by omega), hlen, Nat.add_sub_cancel_left]
    next => cases hs
  | _ => cases hs

theorem splice_isOk_iff (h0 : 0 < k) (hk : k < c.len) :
    (∃ h t, c.splice k = .ok (h, t)) ↔ c.lowAt k = false := by
  refine ⟨fun ⟨h, t, hs⟩ => ?_, splice_isOk h0 hk⟩
  rw [← lowAt_zero t, (splice_cut hs hk.le).low_tail 0, Nat.add_zero]

end Content

namespace Item

variable {it : Item} {h t : Content} {k : ℕ}

theorem len_head (hc : it.content.Cut h t k) : (it.head h).len = k := hc.len_head

theorem len_tail (hc : it.content.Cut h t k) : (it.tail k t).len = it.len - k := hc.len_tail

theorem unit_tail (i : ℕ) : (it.tail k t).unit i = it.unit (k + i) := by
  simp [unit, tail, Nat.add_assoc]

theorem units_split (hc : it.content.Cut h t k) (hk : k ≤ it.len) :
    it.units = (it.head h).units ++ (it.tail k t).units := by
  have hlen : it.len = k + (it.len - k) := by omega
  simp only [units, len_head hc, len_tail hc]
  conv_lhs => rw [hlen, List.range_add, List.map_append, List.map_map]
  refine congrArg₂ _ rfl (List.map_congr_left fun i _ => ?_)
  rw [unit_tail]
  rfl

/-- What cutting an item again and again leaves. -/
inductive Piece (it : Item) : Item → Prop
  | refl : Piece it it
  | head {p : Item} {h t : Content} {k : ℕ} : Piece it p → p.content.splice k = .ok (h, t) →
      0 < k → k < p.len → Piece it (p.head h)
  | tail {p : Item} {h t : Content} {k : ℕ} : Piece it p → p.content.splice k = .ok (h, t) →
      0 < k → k < p.len → Piece it (p.tail k t)

theorem Piece.parent_eq {p : Item} (hp : Piece it p) :
    p.parent = it.parent ∧ p.hasParentSub = it.hasParentSub ∧ p.parentSub = it.parentSub := by
  induction hp with
  | refl => exact ⟨rfl, rfl, rfl⟩
  | head _ _ _ _ ih => exact ih
  | tail _ _ _ _ ih => exact ih

/-- A unit of a piece is a unit of the item, and the low half of a pair if it was one. -/
theorem Piece.low {p : Item} (hp : Piece it p) {x : ID} (hx : x ∈ p.units) :
    x ∈ it.units ∧
      p.content.lowAt (x.clock - p.id.clock) = it.content.lowAt (x.clock - it.id.clock) := by
  induction hp with
  | refl => exact ⟨hx, rfl⟩
  | @head p h t k _ hs h0 hk ih =>
    have hcut := Content.splice_cut hs hk.le
    obtain ⟨hc, hlo, hhi⟩ := mem_units.1 hx
    rw [len_head hcut] at hhi
    simp only [head_id] at hc hlo hhi
    obtain ⟨hm, hl⟩ := ih (mem_units.2 ⟨hc, hlo, by omega⟩)
    exact ⟨hm, (hcut.low_head _ (by simp; omega)).trans hl⟩
  | @tail p h t k _ hs h0 hk ih =>
    have hcut := Content.splice_cut hs hk.le
    obtain ⟨hc, hlo, hhi⟩ := mem_units.1 hx
    rw [len_tail hcut] at hhi
    simp only [tail_id, unit] at hc hlo hhi
    obtain ⟨hm, hl⟩ := ih (mem_units.2 ⟨hc, by omega, by omega⟩)
    refine ⟨hm, (hcut.low_tail _).trans ?_⟩
    rw [← hl]
    congr 1
    simp only [tail_id, unit]
    omega

theorem Piece.trans {p q : Item} (hp : Piece it p) (hq : Piece p q) : Piece it q := by
  induction hq with
  | refl => exact hp
  | head _ hs h0 hk ih => exact ih.head hs h0 hk
  | tail _ hs h0 hk ih => exact ih.tail hs h0 hk

end Item

end YCollab.Crdt
