import Mathlib.Data.List.Sort
import YCollab.Lib0.Encoder

/-!
# The canonical query of a signature

`internal/blob/sigv4.go`, the part of a signed request that lists its query parameters. The
specification orders them by encoded name, and by encoded value where names are equal. The source
sorts the texts `name=value` instead. The separator compares with the characters of a longer name
that starts with a shorter one, and `%`, `-`, `.` and the digits come before it.

So the order is the one of the specification if and only if no name continues another one with a
byte that is neither a letter nor one of `_` and `~` (`canonicalQuery_ordered_iff`);
`dash_before_prefix` shows two names of which one does.
-/

namespace YCollab.Blob

/-- `upperHex`, the digit of a number below 16. -/
def upperHex (n : ℕ) : UInt8 := if n < 10 then UInt8.ofNat (0x30 + n) else UInt8.ofNat (0x37 + n)

/-- A letter, `_` or `~`: what is written as it is and sorts after `=`. -/
def isHigh (c : UInt8) : Bool :=
  (0x41 ≤ c && c ≤ 0x5A) || (0x61 ≤ c && c ≤ 0x7A) || c == 0x5F || c == 0x7E

/-- What is written as it is. -/
def isUnreserved (c : UInt8) : Bool :=
  isHigh c || (0x30 ≤ c && c ≤ 0x39) || c == 0x2D || c == 0x2E

/-- One turn of the loop of `uriEncode`. -/
def encodeByte (c : UInt8) : Bytes :=
  if isUnreserved c then [c] else [0x25, upperHex (c.toNat / 16), upperHex (c.toNat % 16)]

/-- Every byte that is not unreserved is percent-encoded. -/
def uriEncode (s : Bytes) : Bytes := s.flatMap encodeByte

/-- One parameter: `name=value`. -/
def pair (p : Bytes × Bytes) : Bytes := uriEncode p.1 ++ 0x3D :: uriEncode p.2

/-- `strings.Join(pairs, "&")`. -/
def join : List Bytes → Bytes
  | [] => []
  | [x] => x
  | x :: l => x ++ 0x26 :: join l

/-- The parameters of a query, in the order in which the map is walked. -/
def canonicalQuery (q : List (Bytes × Bytes)) : Bytes :=
  join ((q.map pair).insertionSort (· ≤ ·))

/-- The order of the specification: by encoded name, then by encoded value. -/
def InOrder (p p' : Bytes × Bytes) : Prop :=
  uriEncode p.1 < uriEncode p'.1 ∨ uriEncode p.1 = uriEncode p'.1 ∧ uriEncode p.2 ≤ uriEncode p'.2

/-! ### Comparing texts -/

section

variable {a a' : Bytes}

/-- Two texts are equal, differ at some place, or one of them is longer. -/
theorem lex_cases (a a' : Bytes) : a = a' ∨
    (∃ m c c' r r', a = m ++ c :: r ∧ a' = m ++ c' :: r' ∧ (c < c' ∨ c' < c)) ∨
    (∃ c r, a' = a ++ c :: r) ∨ ∃ c r, a = a' ++ c :: r := by
  induction a generalizing a' with
  | nil =>
    cases a' with
    | nil => exact .inl rfl
    | cons c r => exact .inr (.inr (.inl ⟨c, r, rfl⟩))
  | cons c a ih =>
    cases a' with
    | nil => exact .inr (.inr (.inr ⟨c, a, rfl⟩))
    | cons c' a' =>
      by_cases hc : c = c'
      · subst hc
        obtain rfl | ⟨m, d, d', r, r', rfl, rfl, hd⟩ | ⟨d, r, rfl⟩ | ⟨d, r, rfl⟩ := ih a'
        · exact .inl rfl
        · exact .inr (.inl ⟨c :: m, d, d', r, r', rfl, rfl, hd⟩)
        · exact .inr (.inr (.inl ⟨d, r, rfl⟩))
        · exact .inr (.inr (.inr ⟨d, r, rfl⟩))
      · refine .inr (.inl ⟨[], c, c', a, a', rfl, rfl, ?_⟩)
        simp only [UInt8.lt_iff_toNat_lt, ← UInt8.toNat_inj] at hc ⊢
        omega

theorem append_cons_lt (m : Bytes) {c c' : UInt8} (hc : c < c') (r r' : Bytes) :
    m ++ c :: r < m ++ c' :: r' :=
  List.append_left_lt (List.cons_lt_cons_iff.2 (.inl hc))

theorem lt_append_cons (a : Bytes) (c : UInt8) (r : Bytes) : a < a ++ c :: r := by
  simpa using List.append_left_lt (List.nil_lt_cons c r)

theorem takeWhile_append_cons {s : UInt8} (hs : s ∉ a) (r : Bytes) :
    (a ++ s :: r).takeWhile (· ≠ s) = a := by
  have hall : ∀ b ∈ a, (decide (b ≠ s)) = true := fun b hb => by
    simpa using ne_of_mem_of_not_mem hb hs
  rw [List.takeWhile_append_of_pos hall]
  simp

theorem append_cons_inj {s : UInt8} (hs : s ∉ a) (hs' : s ∉ a') {r r' : Bytes}
    (h : a ++ s :: r = a' ++ s :: r') : a = a' ∧ r = r' := by
  have ha : a = a' := by rw [← takeWhile_append_cons hs r, h, takeWhile_append_cons hs' r']
  subst ha
  exact ⟨rfl, (List.cons.inj (List.append_cancel_left h)).2⟩

theorem join_inj {l l' : List Bytes} (hlen : l.length = l'.length) (hl : ∀ x ∈ l, 0x26 ∉ x)
    (hl' : ∀ x ∈ l', 0x26 ∉ x) (h : join l = join l') : l = l' := by
  induction l generalizing l' with
  | nil => exact (List.length_eq_zero_iff.1 hlen.symm).symm
  | cons x l ih =>
    obtain _ | ⟨x', l'⟩ := l'
    · cases hlen
    have hx := hl x (List.mem_cons_self ..)
    have hx' := hl' x' (List.mem_cons_self ..)
    obtain _ | ⟨y, l⟩ := l <;> obtain _ | ⟨y', l'⟩ := l'
    · exact congrArg (fun x => [x]) h
    · simp at hlen
    · simp at hlen
    · obtain ⟨rfl, hrest⟩ := append_cons_inj hx hx' h
      rw [ih (by simpa using hlen) (fun z hz => hl z (List.mem_cons_of_mem _ hz))
        (fun z hz => hl' z (List.mem_cons_of_mem _ hz)) hrest]

end

/-! ### Encoded texts -/

theorem forall_byte {P : UInt8 → Prop} (h : ∀ n < 256, P (UInt8.ofNat n)) (c : UInt8) : P c := by
  simpa using h c.toNat c.toNat_lt

theorem encodeByte_ne (c : UInt8) : 0x3D ∉ encodeByte c ∧ 0x26 ∉ encodeByte c := by
  refine forall_byte (P := fun c => 0x3D ∉ encodeByte c ∧ 0x26 ∉ encodeByte c) ?_ c
  decide +kernel

theorem encodeByte_head (c : UInt8) : ∃ d r, encodeByte c = d :: r ∧ d ≠ 0x3D ∧
    (d < 0x3D ↔ isHigh c = false) := by
  have hall : (encodeByte c).head? ≠ none ∧ ∀ d ∈ (encodeByte c).head?, d ≠ 0x3D ∧
      (d < 0x3D ↔ isHigh c = false) := by
    refine forall_byte (P := fun c => (encodeByte c).head? ≠ none ∧
      ∀ d ∈ (encodeByte c).head?, d ≠ 0x3D ∧ (d < 0x3D ↔ isHigh c = false)) ?_ c
    decide +kernel
  cases hc : encodeByte c with
  | nil => simp [hc] at hall
  | cons d r => exact ⟨d, r, rfl, hall.2 d (by simp [hc])⟩

theorem upperHex_inj {m n : ℕ} (hm : m < 16) (hn : n < 16) (h : upperHex m = upperHex n) :
    m = n := by
  have hall : ∀ m < 16, ∀ n < 16, upperHex m = upperHex n → m = n := by decide +kernel
  exact hall m hm n hn h

theorem encodeByte_append_inj {c c' : UInt8} {r r' : Bytes}
    (h : encodeByte c ++ r = encodeByte c' ++ r') : c = c' ∧ r = r' := by
  have hpercent : isUnreserved 0x25 = false := rfl
  unfold encodeByte at h
  split at h <;> split at h
  · exact List.cons.inj h
  next hc _ =>
    obtain ⟨rfl, -⟩ := List.cons.inj h
    cases hpercent.symm.trans hc
  next _ hc =>
    obtain ⟨rfl, -⟩ := List.cons.inj h
    cases hpercent.symm.trans hc
  · obtain ⟨-, h⟩ := List.cons.inj h
    obtain ⟨hhi, h⟩ := List.cons.inj h
    obtain ⟨hlo, hr⟩ := List.cons.inj h
    have hlt := c.toNat_lt
    have hlt' := c'.toNat_lt
    have := upperHex_inj (by omega) (by omega) hhi
    have := upperHex_inj (by omega) (by omega) hlo
    exact ⟨UInt8.toNat_inj.1 (by omega), hr⟩

theorem uriEncode_ne (s : Bytes) : 0x3D ∉ uriEncode s ∧ 0x26 ∉ uriEncode s := by
  simp only [uriEncode, List.mem_flatMap, not_exists, not_and]
  exact ⟨fun c _ => (encodeByte_ne c).1, fun c _ => (encodeByte_ne c).2⟩

theorem uriEncode_eq_append {s s' r : Bytes} (h : uriEncode s' = uriEncode s ++ r) :
    ∃ t, s' = s ++ t ∧ uriEncode t = r := by
  induction s generalizing s' with
  | nil => exact ⟨s', rfl, h⟩
  | cons c s ih =>
    cases s' with
    | nil =>
      obtain ⟨d, l, hc, -⟩ := encodeByte_head c
      simp [uriEncode, hc] at h
    | cons c' s' =>
      simp only [uriEncode, List.flatMap_cons, List.append_assoc] at h
      obtain ⟨rfl, hrest⟩ := encodeByte_append_inj h
      obtain ⟨t, rfl, ht⟩ := ih hrest
      exact ⟨t, rfl, ht⟩

/-! ### The order -/

variable {p p' : Bytes × Bytes} {q : List (Bytes × Bytes)}

/-- The name of `p'` continues that of `p` with a byte that is encoded to something before `=`. -/
def Overtakes (p' p : Bytes × Bytes) : Prop := ∃ c r, p'.1 = p.1 ++ c :: r ∧ isHigh c = false

theorem pair_not_mem (p : Bytes × Bytes) : 0x26 ∉ pair p := by
  simp [pair, (uriEncode_ne p.1).2, (uriEncode_ne p.2).2]

theorem pair_lt_of_overtakes (h : Overtakes p' p) :
    pair p' < pair p ∧ uriEncode p.1 < uriEncode p'.1 := by
  obtain ⟨c, r, hname, hc⟩ := h
  obtain ⟨d, l, hd, -, hlt⟩ := encodeByte_head c
  have henc : uriEncode p'.1 = uriEncode p.1 ++ d :: (l ++ uriEncode r) := by
    simp [hname, uriEncode, hd]
  rw [pair, henc, List.append_assoc, List.cons_append]
  exact ⟨append_cons_lt _ (hlt.2 hc) .., lt_append_cons ..⟩

theorem inOrder_of_pair_le (hno : ¬Overtakes p p') (h : pair p ≤ pair p') : InOrder p p' := by
  have hnot : ¬pair p' < pair p := List.not_lt.2 h
  unfold pair at hnot
  obtain heq | ⟨m, c, c', r, r', hp, hp', hc | hc⟩ | ⟨c, r, hp'⟩ | ⟨c, r, hp⟩ :=
    lex_cases (uriEncode p.1) (uriEncode p'.1)
  · refine .inr ⟨heq, List.not_lt.1 fun hlt => hnot ?_⟩
    rw [heq]
    exact List.append_left_lt (List.cons_lt_cons_iff.2 (.inr ⟨rfl, hlt⟩))
  · refine .inl ?_
    rw [hp, hp']
    exact append_cons_lt m hc ..
  · refine absurd ?_ hnot
    rw [hp, hp', List.append_assoc, List.append_assoc]
    exact append_cons_lt m hc ..
  · refine .inl ?_
    rw [hp']
    exact lt_append_cons ..
  · -- the name of `p` goes on where the name of `p'` has its separator
    obtain ⟨t, ht, hr⟩ := uriEncode_eq_append hp
    obtain _ | ⟨b, t⟩ := t
    · cases hr
    obtain ⟨d, l, hd, hne, hlt⟩ := encodeByte_head b
    have hcd : c = d := by
      simp only [uriEncode, List.flatMap_cons, hd, List.cons_append] at hr
      exact (List.cons.inj hr).1.symm
    refine absurd ?_ hnot
    rw [hp, List.append_assoc]
    refine append_cons_lt _ ?_ ..
    have hge : ¬d < 0x3D := fun hlow => hno ⟨b, t, ht, hlt.1 hlow⟩
    subst hcd
    simp only [UInt8.lt_iff_toNat_lt, ne_eq, ← UInt8.toNat_inj] at hge hne ⊢
    omega

theorem exists_listed (q : List (Bytes × Bytes)) : ∃ l : List (Bytes × Bytes), l.Perm q ∧
    l.Pairwise (fun p p' => pair p ≤ pair p') ∧ canonicalQuery q = join (l.map pair) := by
  refine ⟨q.insertionSort fun p p' => pair p ≤ pair p', List.perm_insertionSort .., ?_, ?_⟩
  · have : Std.Total fun p p' : Bytes × Bytes => pair p ≤ pair p' := ⟨fun _ _ => List.le_total ..⟩
    have : IsTrans (Bytes × Bytes) fun p p' => pair p ≤ pair p' := ⟨fun _ _ _ => List.le_trans⟩
    exact List.pairwise_insertionSort ..
  · rw [List.map_insertionSort _ (· ≤ ·) _ _ fun _ _ _ _ => Iff.rfl]
    rfl

/-- The parameters can be read off the query in the order of the specification. -/
def Ordered (q : List (Bytes × Bytes)) : Prop :=
  ∃ l : List (Bytes × Bytes), l.Perm q ∧ l.Pairwise InOrder ∧ canonicalQuery q = join (l.map pair)

theorem Ordered.not_overtakes (h : Ordered q) (hp : p ∈ q) (hp' : p' ∈ q) : ¬Overtakes p' p := by
  intro hover
  obtain ⟨l, hperm, horder, hquery⟩ := h
  obtain ⟨l₀, hperm₀, hsorted, hlisted⟩ := exists_listed q
  obtain ⟨hlt, hname⟩ := pair_lt_of_overtakes hover
  have hl : l.map pair = l₀.map pair := by
    refine join_inj ?_ ?_ ?_ (hquery.symm.trans hlisted)
    · rw [List.length_map, List.length_map, hperm.length_eq, hperm₀.length_eq]
    · exact List.forall_mem_map.2 fun p _ => pair_not_mem p
    · exact List.forall_mem_map.2 fun p _ => pair_not_mem p
  have hle : l.Pairwise fun p p' => pair p ≤ pair p' := by
    rw [← List.pairwise_map, hl, List.pairwise_map]
    exact hsorted
  -- whichever of the two is listed first, one of the orders is violated
  obtain ⟨i, hi, rfl⟩ := List.getElem_of_mem (hperm.mem_iff.2 hp)
  obtain ⟨j, hj, rfl⟩ := List.getElem_of_mem (hperm.mem_iff.2 hp')
  rcases Nat.lt_trichotomy i j with hij | rfl | hij
  · exact List.not_lt.2 (List.pairwise_iff_getElem.1 hle i j hi hj hij) hlt
  · exact List.lt_irrefl _ hlt
  · rcases List.pairwise_iff_getElem.1 horder j i hj hi hij with hback | ⟨hsame, -⟩
    · exact List.lt_irrefl _ (List.lt_trans hname hback)
    · exact List.lt_irrefl _ (hsame ▸ hname)

/-- **The parameters are listed in the order of the specification** if and only if no name continues
another one with a byte that is neither a letter nor one of `_` and `~`. -/
theorem canonicalQuery_ordered_iff (q : List (Bytes × Bytes)) :
    Ordered q ↔ ∀ p ∈ q, ∀ p' ∈ q, ¬Overtakes p' p := by
  refine ⟨fun h p hp p' hp' => h.not_overtakes hp hp', fun hno => ?_⟩
  obtain ⟨l, hperm, hsorted, hlisted⟩ := exists_listed q
  refine ⟨l, hperm, hsorted.imp_of_mem fun hp hp' hle => ?_, hlisted⟩
  exact inOrder_of_pair_le (hno _ (hperm.mem_iff.1 hp') _ (hperm.mem_iff.1 hp)) hle

/-- **A longer name comes first**: `a-=1` is listed before `a=2`, but the name `a` before `a-`. -/
theorem dash_before_prefix :
    canonicalQuery [([97], [50]), ([97, 45], [49])] = [97, 45, 61, 49, 38, 97, 61, 50] ∧
    ¬Ordered [([97], [50]), ([97, 45], [49])] := by
  have hover : Overtakes ([97, 45], [49]) ([97], [50]) := ⟨45, [], rfl, rfl⟩
  exact ⟨by decide +kernel, fun h => h.not_overtakes (by simp) (by simp) hover⟩

end YCollab.Blob
