import YCollab.Crdt.DeleteSet

/-!
# Delete sets as sets of clocks

`DeleteSet.add` keeps the ranges of a client sorted, apart from one another and not empty
(`Canonical`). A list of ranges in this form is determined by the clocks it covers
(`Canonical.ext`), and so is a delete set that was built with `add` (`DeleteSet.Built.ext`). The
binary search of `isDeleted` relies on the form, and finds the clock exactly if it is covered
(`isDeleted_iff`). What a sequence of calls of `add` makes is `addAll_canonical`.
-/

namespace YCollab.Crdt

/-- The clock lies in one of the ranges. -/
def Covers (rs : List DeleteRange) (k : ℕ) : Prop := ∃ r ∈ rs, r.clock ≤ k ∧ k < r.endClock

/-- Ranges in order with a gap between any two, none of them empty. -/
structure Canonical (rs : List DeleteRange) : Prop where
  apart : rs.Pairwise fun r r' => r.endClock < r'.clock
  pos : ∀ r ∈ rs, 0 < r.len

variable {r last : DeleteRange} {rs rs' : List DeleteRange} {k : ℕ}

@[simp] theorem covers_nil : ¬Covers [] k := by simp [Covers]

theorem covers_cons : Covers (r :: rs) k ↔ r.clock ≤ k ∧ k < r.endClock ∨ Covers rs k := by
  simp [Covers]

theorem covers_append : Covers (rs ++ rs') k ↔ Covers rs k ∨ Covers rs' k := by
  simp only [Covers, List.mem_append, or_and_right, exists_or]

/-! ### Merging -/

theorem mergeRanges_head (last : DeleteRange) (rs : List DeleteRange) :
    ∃ r rest, mergeRanges last rs = r :: rest ∧ r.clock = last.clock := by
  induction rs generalizing last with
  | nil => exact ⟨last, [], rfl, rfl⟩
  | cons r rs ih =>
    rw [mergeRanges]
    split
    next =>
      split
      next => exact ih _
      next => exact ih _
    next => exact ⟨last, _, rfl, rfl⟩

theorem mergeRanges_spec (last : DeleteRange) (rs : List DeleteRange)
    (hs : (last :: rs).Pairwise fun r r' => r.clock ≤ r'.clock) (hpos : ∀ r ∈ last :: rs, 0 < r.len) :
    Canonical (mergeRanges last rs) ∧
      ∀ k, Covers (mergeRanges last rs) k ↔ Covers (last :: rs) k := by
  induction rs generalizing last with
  | nil => exact ⟨⟨by simp [mergeRanges], by simpa [mergeRanges] using hpos⟩, fun _ => Iff.rfl⟩
  | cons r rs ih =>
    obtain ⟨hlast, hrs⟩ := List.pairwise_cons.1 hs
    obtain ⟨hr, hrs'⟩ := List.pairwise_cons.1 hrs
    have hlr := hlast r (List.mem_cons_self ..)
    have hposl := hpos last (List.mem_cons_self ..)
    have hposr := hpos r (by simp)
    rw [mergeRanges]
    split
    next hle =>
      unfold DeleteRange.endClock at hle
      split
      next hgt =>
        unfold DeleteRange.endClock at hgt
        -- `r` sticks out: the range being built grows to its end
        obtain ⟨h1, h2⟩ := ih { last with len := r.endClock - last.clock }
          (List.pairwise_cons.2 ⟨fun a ha => hlast a (List.mem_cons_of_mem _ ha), hrs'⟩)
          (fun a ha => by
            rcases List.mem_cons.1 ha with rfl | ha
            · simp only [DeleteRange.endClock]
              omega
            · exact hpos a (by simp [ha]))
        refine ⟨h1, fun k => ?_⟩
        rw [h2, covers_cons, covers_cons, covers_cons, ← or_assoc]
        refine or_congr_left ?_
        simp only [DeleteRange.endClock]
        omega
      next hgt =>
        unfold DeleteRange.endClock at hgt
        obtain ⟨h1, h2⟩ := ih last
          (List.pairwise_cons.2 ⟨fun a ha => hlast a (List.mem_cons_of_mem _ ha), hrs'⟩)
          (fun a ha => hpos a (by
            rcases List.mem_cons.1 ha with rfl | ha
            · simp
            · simp [ha]))
        refine ⟨h1, fun k => ?_⟩
        rw [h2, covers_cons, covers_cons, covers_cons, ← or_assoc]
        refine or_congr_left ?_
        simp only [DeleteRange.endClock]
        omega
    next hgap =>
      obtain ⟨h1, h2⟩ := ih r hrs fun a ha => hpos a (List.mem_cons_of_mem _ ha)
      obtain ⟨r', rest, hrest, hclock⟩ := mergeRanges_head r rs
      refine ⟨⟨List.pairwise_cons.2 ⟨fun a ha => ?_, h1.apart⟩, fun a ha => ?_⟩, fun k => ?_⟩
      · rw [hrest] at ha h1
        rcases List.mem_cons.1 ha with rfl | ha
        · omega
        · have := (List.pairwise_cons.1 h1.apart).1 a ha
          unfold DeleteRange.endClock at *
          omega
      · rcases List.mem_cons.1 ha with rfl | ha
        · exact hposl
        · exact h1.pos a ha
      · simp only [covers_cons, h2]

theorem normalizeRanges_spec (hpos : ∀ r ∈ rs, 0 < r.len) :
    Canonical (normalizeRanges rs) ∧ ∀ k, Covers (normalizeRanges rs) k ↔ Covers rs k := by
  have hperm := List.perm_insertionSort (fun r r' : DeleteRange => r.clock ≤ r'.clock) rs
  have : Std.Total fun r r' : DeleteRange => r.clock ≤ r'.clock := ⟨fun _ _ => le_total _ _⟩
  have : IsTrans DeleteRange fun r r' => r.clock ≤ r'.clock := ⟨fun _ _ _ => le_trans⟩
  have hsort := List.pairwise_insertionSort (fun r r' : DeleteRange => r.clock ≤ r'.clock) rs
  unfold normalizeRanges
  cases hl : rs.insertionSort (fun r r' => r.clock ≤ r'.clock) with
  | nil =>
    rw [hl] at hperm
    rw [hperm.symm.eq_nil]
    exact ⟨⟨.nil, by simp⟩, fun _ => Iff.rfl⟩
  | cons r l =>
    rw [hl] at hperm hsort
    obtain ⟨h1, h2⟩ := mergeRanges_spec r l hsort fun a ha => hpos a (hperm.mem_iff.1 ha)
    refine ⟨h1, fun k => (h2 k).trans ?_⟩
    simp only [Covers, hperm.mem_iff]

/-! ### A canonical list is determined by its clocks -/

theorem Canonical.clock_le (h : Canonical (r :: rs)) (hk : Covers (r :: rs) k) : r.clock ≤ k := by
  rcases covers_cons.1 hk with ⟨h1, -⟩ | ⟨r', hr', h1, -⟩
  · exact h1
  · have := (List.pairwise_cons.1 h.apart).1 r' hr'
    unfold DeleteRange.endClock at this
    omega

theorem Canonical.covers_start (h : Canonical (r :: rs)) : Covers (r :: rs) r.clock :=
  ⟨r, by simp, le_rfl, by have := h.pos r (by simp); unfold DeleteRange.endClock; omega⟩

theorem Canonical.not_covers_end (h : Canonical (r :: rs)) : ¬Covers (r :: rs) r.endClock := by
  intro hk
  rcases covers_cons.1 hk with ⟨-, h1⟩ | ⟨r', hr', h1, -⟩
  · exact lt_irrefl _ h1
  · have := (List.pairwise_cons.1 h.apart).1 r' hr'
    omega

theorem Canonical.tail (h : Canonical (r :: rs)) : Canonical rs :=
  ⟨(List.pairwise_cons.1 h.apart).2, fun a ha => h.pos a (List.mem_cons_of_mem _ ha)⟩

theorem Canonical.covers_tail (h : Canonical (r :: rs)) :
    Covers rs k ↔ Covers (r :: rs) k ∧ r.endClock ≤ k := by
  rw [covers_cons]
  constructor
  · rintro ⟨r', hr', h1, h2⟩
    have := (List.pairwise_cons.1 h.apart).1 r' hr'
    exact ⟨.inr ⟨r', hr', h1, h2⟩, by omega⟩
  · rintro ⟨⟨-, h1⟩ | h1, h2⟩
    · omega
    · exact h1

theorem Canonical.eq_or_apart (h : Canonical rs) {r r' : DeleteRange} (hr : r ∈ rs) (hr' : r' ∈ rs) :
    r = r' ∨ r.endClock < r'.clock ∨ r'.endClock < r.clock := by
  induction rs with
  | nil => cases hr
  | cons a rs ih =>
    have ha := (List.pairwise_cons.1 h.apart).1
    rcases List.mem_cons.1 hr with rfl | hr <;> rcases List.mem_cons.1 hr' with rfl | hr'
    · exact .inl rfl
    · exact .inr (.inl (ha r' hr'))
    · exact .inr (.inr (ha _ ‹_›))
    · exact ih h.tail hr hr'

/-- Ranges are as long as they can be: neither the clock before one nor the one after it is
covered. -/
theorem Canonical.not_covers (h : Canonical rs) (hr : r ∈ rs) :
    ¬Covers rs r.endClock ∧ ∀ k, r.clock = k + 1 → ¬Covers rs k := by
  have hpos := h.pos r hr
  refine ⟨fun ⟨r', hr', h1, h2⟩ => ?_, fun k hk ⟨r', hr', h1, h2⟩ => ?_⟩
  all_goals
    rcases h.eq_or_apart hr hr' with rfl | hlt | hlt
    all_goals
      unfold DeleteRange.endClock at *
      omega

theorem Canonical.ext (h : Canonical rs) (h' : Canonical rs')
    (heq : ∀ k, Covers rs k ↔ Covers rs' k) : rs = rs' := by
  induction rs generalizing rs' with
  | nil =>
    cases rs' with
    | nil => rfl
    | cons r' rs' => exact absurd ((heq _).2 h'.covers_start) covers_nil
  | cons r rs ih =>
    cases rs' with
    | nil => exact absurd ((heq _).1 h.covers_start) covers_nil
    | cons r' rs' =>
      have hclock : r.clock = r'.clock := le_antisymm
        (h.clock_le ((heq _).2 h'.covers_start)) (h'.clock_le ((heq _).1 h.covers_start))
      have hpos := h.pos r (by simp)
      have hpos' := h'.pos r' (by simp)
      -- the first range ends at the first clock that is not covered
      have hend : r.endClock = r'.endClock := by
        rcases lt_trichotomy r.endClock r'.endClock with hlt | heq' | hlt
        · refine absurd ((heq r.endClock).2 ⟨r', by simp, ?_, hlt⟩) h.not_covers_end
          unfold DeleteRange.endClock
          omega
        · exact heq'
        · refine absurd ((heq r'.endClock).1 ⟨r, by simp, ?_, hlt⟩) h'.not_covers_end
          unfold DeleteRange.endClock
          omega
      have hr : r = r' := by
        cases r
        cases r'
        simp only [DeleteRange.endClock] at hclock hend
        simp only [DeleteRange.mk.injEq]
        omega
      subst hr
      rw [ih h.tail h'.tail fun k => by rw [h.covers_tail, h'.covers_tail, heq]]

/-! ### Delete sets -/

namespace DeleteSet

variable {ds ds' : DeleteSet} {x : ID}

/-- The set names the unit. -/
def Names (ds : DeleteSet) (x : ID) : Prop := Covers (ds.ranges x.client) x.clock

/-- The set is one that `add` builds. -/
def Built (ds : DeleteSet) : Prop := ∀ c rs, ds.find? c = some rs → rs ≠ [] ∧ Canonical rs

@[simp] theorem ranges_empty (c : ℕ) : ranges SortedMap.empty c = [] := rfl

@[simp] theorem names_empty : ¬Names SortedMap.empty x := by simp [Names]

theorem Built.empty : Built SortedMap.empty := by simp [Built]

theorem Built.ranges (h : ds.Built) (c : ℕ) : Canonical (ds.ranges c) := by
  unfold DeleteSet.ranges
  cases hf : ds.find? c with
  | none => exact ⟨.nil, by simp⟩
  | some rs => exact (h c rs hf).2

theorem ranges_insert (ds : DeleteSet) (c c' : ℕ) (rs : List DeleteRange) :
    ranges (SortedMap.insert ds c rs) c' = if c' = c then rs else ds.ranges c' := by
  unfold ranges
  rw [SortedMap.find?_insert]
  split <;> rfl

theorem Built.ext (h : ds.Built) (h' : ds'.Built) (heq : ∀ x, ds.Names x ↔ ds'.Names x) :
    ds = ds' := by
  refine SortedMap.ext_find fun c => ?_
  have hr : ds.ranges c = ds'.ranges c := (h.ranges c).ext (h'.ranges c) fun k => heq ⟨c, k⟩
  unfold DeleteSet.ranges at hr
  cases hf : ds.find? c with
  | none =>
    cases hf' : ds'.find? c with
    | none => rfl
    | some rs' =>
      rw [hf, hf'] at hr
      exact absurd hr.symm (h' c rs' hf').1
  | some rs =>
    cases hf' : ds'.find? c with
    | none =>
      rw [hf, hf'] at hr
      exact absurd hr (h c rs hf).1
    | some rs' =>
      rw [hf, hf'] at hr
      exact congrArg some hr

variable {c clock len : ℕ}

theorem Built.add_spec (h : ds.Built) (c clock : ℕ) (hlen : len ≠ 0) :
    Canonical (normalizeRanges (ds.ranges c ++ [⟨clock, len⟩])) ∧ ∀ k,
      Covers (normalizeRanges (ds.ranges c ++ [⟨clock, len⟩])) k ↔
        Covers (ds.ranges c) k ∨ clock ≤ k ∧ k < clock + len := by
  have hpos : ∀ r ∈ ds.ranges c ++ [⟨clock, len⟩], 0 < r.len := by
    intro r hr
    rcases List.mem_append.1 hr with hr | hr
    · exact (h.ranges c).pos r hr
    · rw [List.mem_singleton.1 hr]
      exact Nat.pos_of_ne_zero hlen
  obtain ⟨h1, h2⟩ := normalizeRanges_spec hpos
  refine ⟨h1, fun k => ?_⟩
  rw [h2, covers_append, covers_cons]
  simp [DeleteRange.endClock]

theorem Built.add (h : ds.Built) : (ds.add c clock len).Built := by
  unfold DeleteSet.add
  split
  next => exact h
  next hlen =>
    intro c' rs hf
    rw [SortedMap.find?_insert] at hf
    split at hf
    next =>
      obtain rfl := Option.some.inj hf
      obtain ⟨h1, h2⟩ := h.add_spec c clock hlen
      refine ⟨fun hnil => ?_, h1⟩
      have := (h2 clock).2 (.inr ⟨le_rfl, by omega⟩)
      rw [hnil] at this
      exact covers_nil this
    next => exact h c' rs hf

theorem Built.names_add (h : ds.Built) : (ds.add c clock len).Names x ↔
    ds.Names x ∨ x.client = c ∧ clock ≤ x.clock ∧ x.clock < clock + len := by
  unfold DeleteSet.add
  split
  next hlen =>
    refine (or_iff_left ?_).symm
    rintro ⟨-, h1, h2⟩
    omega
  next hlen =>
    unfold Names
    rw [ranges_insert]
    split
    next heq =>
      rw [(h.add_spec c clock hlen).2, heq]
      simp
    next hne => simp [hne]

theorem Built.isEmpty (h : ds.Built) (hemp : ds.isEmpty = true) : ds = SortedMap.empty := by
  refine h.ext .empty fun x => iff_of_false ?_ names_empty
  rintro ⟨r, hr, -⟩
  unfold DeleteSet.ranges at hr
  cases hf : ds.find? x.client with
  | none => simp [hf] at hr
  | some rs =>
    have := List.all_eq_true.1 hemp _ (SortedMap.find?_eq_some.1 hf)
    exact (h _ _ hf).1 (by simpa using this)

/-! ### Sequences of `add` -/

theorem endsAfter_mono_of_canonical (h : Canonical rs) {i j : ℕ} (hij : i ≤ j) (hi : endsAfter rs k i = true) :
    endsAfter rs k j = true := by
  unfold endsAfter at hi ⊢
  split
  next r hr =>
    obtain ⟨hj, rfl⟩ := List.getElem?_eq_some_iff.1 hr
    rw [List.getElem?_eq_getElem (hij.trans_lt hj)] at hi
    simp only [decide_eq_true_eq] at hi ⊢
    rcases hij.eq_or_lt with rfl | hlt
    · exact hi
    · have := List.pairwise_iff_getElem.1 h.apart i j (hlt.trans hj) hj hlt
      unfold DeleteRange.endClock at *
      omega
  next => rfl

/-- **The search is right** for ranges in canonical form. -/
theorem isDeleted_iff (h : Canonical (ds.ranges x.client)) : ds.isDeleted x = true ↔ ds.Names x := by
  unfold isDeleted Names
  dsimp only
  generalize ds.ranges x.client = rs at h ⊢
  obtain ⟨-, hbefore, hat⟩ := Search.search_spec (f := endsAfter rs x.clock)
    (fun i j => endsAfter_mono_of_canonical h) rs.length
  generalize Search.search rs.length (endsAfter rs x.clock) = i at hbefore hat ⊢
  constructor
  · intro hdel
    split at hdel
    next r hr =>
      obtain ⟨hi, rfl⟩ := List.getElem?_eq_some_iff.1 hr
      have hend := hat hi
      simp only [endsAfter, hr, decide_eq_true_eq] at hend hdel
      exact ⟨_, List.getElem_mem hi, hdel, hend⟩
    · cases hdel
  · rintro ⟨r, hr, hlo, hhi⟩
    obtain ⟨j, hj, rfl⟩ := List.getElem_of_mem hr
    have hij : i ≤ j := by
      by_contra hlt
      have := hbefore j (Nat.lt_of_not_le hlt)
      simp only [endsAfter, List.getElem?_eq_getElem hj, decide_eq_false_iff_not] at this
      exact this hhi
    rw [List.getElem?_eq_getElem (hij.trans_lt hj)]
    simp only [decide_eq_true_eq]
    -- an earlier range that ends after the clock would reach into the one that covers it
    rcases hij.eq_or_lt with rfl | hlt
    · exact hlo
    · have hapart := List.pairwise_iff_getElem.1 h.apart i j (hlt.trans hj) hj hlt
      have hend := hat (hlt.trans hj)
      simp only [endsAfter, List.getElem?_eq_getElem (hlt.trans hj), decide_eq_true_eq] at hend
      omega

/-- Calls of `add`, each with its client and its range. -/
def addAll (ds : DeleteSet) (l : List (ℕ × DeleteRange)) : DeleteSet :=
  l.foldl (fun ds p => ds.add p.1 p.2.clock p.2.len) ds

/-- The unit is in a range that one of the calls adds. -/
def Added (l : List (ℕ × DeleteRange)) (x : ID) : Prop :=
  ∃ p ∈ l, x.client = p.1 ∧ p.2.clock ≤ x.clock ∧ x.clock < p.2.endClock

theorem Built.addAll (h : ds.Built) (l : List (ℕ × DeleteRange)) :
    (ds.addAll l).Built ∧ ∀ x, (ds.addAll l).Names x ↔ ds.Names x ∨ Added l x := by
  induction l generalizing ds with
  | nil => exact ⟨h, fun x => by simp [DeleteSet.addAll, Added]⟩
  | cons p l ih =>
    obtain ⟨hbuilt, hnames⟩ := ih (h.add (c := p.1))
    refine ⟨hbuilt, fun x => (hnames x).trans ?_⟩
    rw [h.names_add, or_assoc]
    simp only [Added, List.mem_cons, exists_eq_or_imp]
    rfl

/-- **Delete sets have one canonical form**: whatever is added in whatever order, the ranges of a
client are in order and apart, they cover what was added, `isDeleted` finds exactly that, and two
sequences of calls with the same union give the same lists. -/
theorem addAll_canonical (l l' : List (ℕ × DeleteRange)) :
    (∀ c, Canonical (ranges (addAll SortedMap.empty l) c)) ∧
    (∀ x : ID, Covers (ranges (addAll SortedMap.empty l) x.client) x.clock ↔ Added l x) ∧
    (∀ x, isDeleted (addAll SortedMap.empty l) x = true ↔ Added l x) ∧
    ((∀ x, Added l x ↔ Added l' x) ↔ addAll SortedMap.empty l = addAll SortedMap.empty l') := by
  obtain ⟨hbuilt, hnames⟩ := Built.empty.addAll l
  obtain ⟨hbuilt', hnames'⟩ := Built.empty.addAll l'
  simp only [names_empty, false_or] at hnames hnames'
  refine ⟨hbuilt.ranges, hnames, fun x => (isDeleted_iff (hbuilt.ranges x.client)).trans (hnames x),
    fun heq => ?_, fun heq x => ?_⟩
  · exact hbuilt.ext hbuilt' fun x => by rw [hnames, hnames', heq]
  · rw [← hnames, heq, hnames']

end DeleteSet

/-- `sort.Slice` may put ranges of one clock in any order; the result is the same. -/
theorem mergeRanges_eq_normalizeRanges (hpos : ∀ r ∈ rs, 0 < r.len) (hperm : (r :: rs').Perm rs)
    (hsort : (r :: rs').Pairwise fun r r' => r.clock ≤ r'.clock) :
    mergeRanges r rs' = normalizeRanges rs := by
  obtain ⟨h₁, h₂⟩ := mergeRanges_spec r rs' hsort fun a ha => hpos a (hperm.mem_iff.1 ha)
  obtain ⟨h₁', h₂'⟩ := normalizeRanges_spec hpos
  refine h₁.ext h₁' fun k => (h₂ k).trans (Iff.trans ?_ (h₂' k).symm)
  simp only [Covers, hperm.mem_iff]

theorem mergeRanges_tied : mergeRanges ⟨0, 3⟩ [⟨0, 1⟩, ⟨5, 1⟩] =
    normalizeRanges [⟨0, 1⟩, ⟨5, 1⟩, ⟨0, 3⟩] :=
  mergeRanges_eq_normalizeRanges (by decide) (by decide) (by decide)

end YCollab.Crdt
