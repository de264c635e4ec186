import YCollab.Crdt.Contains

/-!
# What a delete set deletes

A delete set is applied range by range. A range deletes exactly the units it names unless one of its
boundaries lies between the two halves of a live surrogate pair: at the start of the range the item
cannot be cut and is deleted from its own start on, at the end it cannot be cut and is left out
(`Doc.applyRange_exact_iff`, `emoji_deleted_by_half`). So a delete set is applied exactly if no range
has such a boundary when its turn comes (`deletes_exactly_iff`).
-/

namespace YCollab.Crdt

open Lib0

variable {d d' : Doc} {ds : DeleteSet} {x : ID} {c : ℕ} {r : DeleteRange} {bs : List Bytes}
  {rs : List (ℕ × DeleteRange)}

/-- The ranges of a delete set, in the order in which they are applied. -/
def DeleteSet.rangeList (ds : DeleteSet) : List (ℕ × DeleteRange) :=
  ds.entries.flatMap fun p => p.2.map (p.1, ·)

/-- One of the ranges names the unit. -/
def NamedIn (rs : List (ℕ × DeleteRange)) (x : ID) : Prop :=
  ∃ p ∈ rs, p.1 = x.client ∧ p.2.clock ≤ x.clock ∧ x.clock < p.2.endClock

theorem DeleteSet.namedIn_rangeList : NamedIn ds.rangeList x ↔ ds.Names x := by
  rw [DeleteSet.names_iff]
  simp only [NamedIn, DeleteSet.rangeList, List.mem_flatMap, List.mem_map]
  constructor
  · rintro ⟨-, ⟨p, hp, r, hr, rfl⟩, hc, h⟩
    exact ⟨p, hp, hc, r, hr, h⟩
  · rintro ⟨p, hp, hc, r, hr, h⟩
    exact ⟨_, ⟨p, hp, r, hr, rfl⟩, hc, h⟩

theorem namedIn_concat : NamedIn (rs ++ [(c, r)]) x ↔
    NamedIn rs x ∨ x.client = c ∧ r.clock ≤ x.clock ∧ x.clock < r.endClock := by
  simp [NamedIn, or_and_right, exists_or, eq_comm]

namespace Doc

/-- Apply some ranges one after the other. -/
def applyRanges (d : Doc) (rs : List (ℕ × DeleteRange)) : Doc :=
  rs.foldl (fun d p => applyRange p.1 (d.state p.1) d p.2) d

theorem applyRanges_concat (d : Doc) (rs : List (ℕ × DeleteRange)) (c : ℕ) (r : DeleteRange) :
    d.applyRanges (rs ++ [(c, r)]) =
      applyRange c ((d.applyRanges rs).state c) (d.applyRanges rs) r := by
  simp [applyRanges]

theorem applyDeleteSet_eq_ranges (hg : d.store.Gapless) (ds : DeleteSet) :
    d.applyDeleteSet ds = d.applyRanges ds.rangeList := by
  have hclient : ∀ (c : ℕ) (rs : List DeleteRange) {d : Doc}, d.store.Gapless →
      rs.foldl (applyRange c (d.state c)) d = d.applyRanges (rs.map (c, ·)) := by
    intro c rs
    induction rs with
    | nil => exact fun _ => rfl
    | cons r rs ih =>
      intro d hg
      have hm := (edits_applyRange hg c (d.state c) r).marks hg
      have := ih hm.gapless
      rw [hm.state] at this
      exact this
  unfold applyDeleteSet DeleteSet.rangeList
  induction ds.entries generalizing d with
  | nil => rfl
  | cons e es ih =>
    have hm := (edits_ranges hg e.1 (d.state e.1) e.2).marks hg
    rw [List.foldl_cons, ih hm.gapless, hclient e.1 e.2 hg, List.flatMap_cons]
    simp only [applyRanges, List.foldl_append]

theorem edits_applyRanges (hg : d.store.Gapless) (rs : List (ℕ × DeleteRange)) :
    Edits d (d.applyRanges rs) := by
  induction rs using List.reverseRecOn with
  | nil => exact .refl
  | append_singleton rs p ih =>
    rw [applyRanges_concat]
    exact ih.trans (edits_applyRange (ih.marks hg).gapless ..)

/-! ### One range -/

theorem LowAt.pos (h : d.LowAt x) : 0 < x.clock := by
  obtain ⟨it, -, hx, hlow⟩ := h
  obtain ⟨-, hlo, -⟩ := Item.mem_units.1 hx
  refine Nat.pos_of_ne_zero fun hk => ?_
  rw [hk, Nat.zero_sub, Content.lowAt_zero] at hlow
  cases hlow

theorem LowAt.gone_iff (hg : d.store.Gapless) {k : ℕ} (h : d.LowAt ⟨c, k⟩) :
    d.Gone ⟨c, k⟩ ↔ d.Gone ⟨c, k - 1⟩ := by
  have hpos := h.pos
  obtain ⟨it, hst, hx, hlow⟩ := h
  obtain ⟨hcl, hlo, hhi⟩ := Item.mem_units.1 hx
  simp only at hpos hcl hlo hhi hlow
  have hne : it.id.clock ≠ k := fun heq => by
    rw [heq, Nat.sub_self, Content.lowAt_zero] at hlow
    cases hlow
  have hx' : (⟨c, k - 1⟩ : ID) ∈ it.units :=
    Item.mem_units.2 ⟨hcl, by simp only; omega, by simp only; omega⟩
  rw [hst.gone_iff hg hx, hst.gone_iff hg hx']

theorem Deletes.pair (hm : Marks d d') (hg : d.store.Gapless) {N : ID → Prop} (h : Deletes d d' N)
    {k : ℕ} (hlive : d.LivePair ⟨c, k⟩) : N ⟨c, k⟩ ↔ N ⟨c, k - 1⟩ := by
  obtain ⟨hlow, hgone⟩ := hlive
  have hpair := hlow.gone_iff hg
  have hpair' := ((hm.lowAt_iff hg).2 hlow).gone_iff hm.gapless
  have hhas := hlow.has hg
  have hhas' : d.Has ⟨c, k - 1⟩ := lt_of_le_of_lt (Nat.sub_le k 1) hhas
  rw [h, h] at hpair'
  rw [hpair] at hgone
  simpa [hpair, hgone, hhas, hhas'] using hpair'

/-- **A range deletes exactly what it names unless it cuts a live pair.** -/
theorem applyRange_exact_iff (hg : d.store.Gapless) :
    Deletes d (applyRange c (d.state c) d r)
      (fun x => x.client = c ∧ r.clock ≤ x.clock ∧ x.clock < r.endClock) ↔ ¬d.CutsPair c r := by
  refine ⟨fun h => ?_, applyRange_gone hg⟩
  have hm := (edits_applyRange hg c (d.state c) r).marks hg
  rintro ⟨hpos, hlive | hlive⟩
  · -- the range names the second half only
    have hk : 0 < r.clock := hlive.1.pos
    have := (h.pair hm hg hlive).1 ⟨rfl, le_rfl, Nat.lt_add_of_pos_right hpos⟩
    simp only at this
    omega
  · -- the range names the first half only
    have := (h.pair hm hg hlive).2 ⟨rfl, by simp only [DeleteRange.endClock]; omega, by
      simp only [DeleteRange.endClock]
      omega⟩
    simp only [lt_self_iff_false, and_false] at this

/-! ### All ranges -/

/-- What is named has been deleted as far as it was there, is remembered otherwise, and nothing else
has been deleted. -/
structure Exact (d d' : Doc) (N : ID → Prop) : Prop where
  deleted : ∀ x, d'.Gone x ↔ d.Gone x ∨ N x ∧ d.Has x
  remembered : ∀ x, N x → ¬d.Has x → d'.pendingDeletes.Names x

/-- No range of the set starts or ends inside a pair that is live when its turn comes: that was not
deleted before, and that no range before it names. -/
def Unsplit (d : Doc) (ds : DeleteSet) : Prop :=
  ∀ rs c r, rs ++ [(c, r)] <+: ds.rangeList → 0 < r.len → ∀ k, k = r.clock ∨ k = r.endClock →
    d.LowAt ⟨c, k⟩ → d.Gone ⟨c, k⟩ ∨ NamedIn rs ⟨c, k⟩

theorem applyRanges_remembers (hg : d.store.Gapless) (hb : d.pendingDeletes.Built)
    (rs : List (ℕ × DeleteRange)) : Held d (d.applyRanges rs) (NamedIn rs) := by
  induction rs using List.reverseRecOn with
  | nil => exact ⟨.refl, hb, fun x => by simp [NamedIn, applyRanges]⟩
  | append_singleton rs p ih =>
    have h := ih.trans (applyRange_held (ih.edits.marks hg).gapless ih.built p.1 p.2) hg
    rw [applyRanges_concat]
    exact ⟨h.edits, h.built, fun x => (h.names x).trans (by rw [namedIn_concat])⟩

/-- The next range cuts no live pair exactly if its boundaries are not in one, or in one that is
named already. -/
theorem not_cutsPair_iff (hg : d.store.Gapless) (h : Deletes d (d.applyRanges rs) (NamedIn rs)) :
    ¬(d.applyRanges rs).CutsPair c r ↔ (0 < r.len → ∀ k, k = r.clock ∨ k = r.endClock →
      d.LowAt ⟨c, k⟩ → d.Gone ⟨c, k⟩ ∨ NamedIn rs ⟨c, k⟩) := by
  have hm := (edits_applyRanges hg rs).marks hg
  have hlive : ∀ k, ¬(d.applyRanges rs).LivePair ⟨c, k⟩ ↔
      (d.LowAt ⟨c, k⟩ → d.Gone ⟨c, k⟩ ∨ NamedIn rs ⟨c, k⟩) := fun k => by
    unfold LivePair
    rw [hm.lowAt_iff hg, h, not_and, not_not]
    exact forall_congr' fun hlow => or_congr_right (and_iff_left (hlow.has hg))
  unfold CutsPair
  rw [not_and, not_or, hlive, hlive]
  simp only [forall_eq_or_imp, forall_eq]

/-- **Ranges are applied exactly, each in its turn, if none cuts a live pair, and only then.** -/
theorem unsplit_iff (hg : d.store.Gapless) :
    d.Unsplit ds ↔ ∀ rs, rs <+: ds.rangeList → Deletes d (d.applyRanges rs) (NamedIn rs) := by
  have hmarks : ∀ rs, Marks d (d.applyRanges rs) := fun rs => (edits_applyRanges hg rs).marks hg
  constructor
  · intro h rs
    induction rs using List.reverseRecOn with
    | nil => exact fun _ x => by simp [NamedIn, applyRanges]
    | append_singleton rs p ih =>
      intro hpre x
      have hrs := ih ((List.prefix_append rs _).trans hpre)
      have hcut := (not_cutsPair_iff hg hrs).2 (h rs p.1 p.2 hpre)
      have hstep := applyRange_gone (hmarks rs).gapless hcut
      rw [applyRanges_concat, hrs.trans hstep (hmarks rs), namedIn_concat]
  · intro h rs c r hpre
    have hrs := h rs ((List.prefix_append rs _).trans hpre)
    have hnext := h _ hpre
    rw [← not_cutsPair_iff hg hrs, ← applyRange_exact_iff (hmarks rs).gapless, ← applyRanges_concat]
    intro x
    have hhas : (d.applyRanges rs).Has x ↔ d.Has x := by
      unfold Has
      rw [(hmarks rs).state]
    rw [hnext, hrs, hhas, namedIn_concat, or_and_right, or_assoc]

/-- Ranges with gaps between them that name no half of a live pair have no boundary in one. -/
theorem unsplit_of_pairs (hb : ds.Built)
    (h : ∀ c k, d.LivePair ⟨c, k⟩ → (ds.Names ⟨c, k⟩ ↔ ds.Names ⟨c, k - 1⟩)) : d.Unsplit ds := by
  intro rs c r hpre hpos k hk hlow
  have hmem : (c, r) ∈ ds.rangeList := hpre.subset (by simp)
  obtain ⟨p, hp, r', hr, heq⟩ : ∃ p ∈ ds.entries, ∃ r' ∈ p.2, (p.1, r') = (c, r) := by
    simpa [DeleteSet.rangeList] using hmem
  obtain ⟨rfl, rfl⟩ := Prod.mk.inj heq
  have hranges : ds.ranges p.1 = p.2 := by
    rw [DeleteSet.ranges, SortedMap.find?_eq_some.2 hp]
    rfl
  have hcan : Canonical p.2 := hranges ▸ hb.ranges p.1
  have hk0 : 0 < k := hlow.pos
  refine .inl (not_not.1 fun hlive => ?_)
  have hpair := h p.1 k ⟨hlow, hlive⟩
  unfold DeleteSet.Names at hpair
  simp only [hranges] at hpair
  obtain ⟨hend, hstart⟩ := hcan.not_covers hr
  rcases hk with rfl | rfl
  · exact hstart (r'.clock - 1) (by omega)
      (hpair.1 ⟨r', hr, le_rfl, Nat.lt_add_of_pos_right hpos⟩)
  · exact hend (hpair.2 ⟨r', hr, by simp only [DeleteRange.endClock]; omega,
      by simp only [DeleteRange.endClock]; omega⟩)

end Doc

/-- **A delete set deletes exactly what it names if no range starts or ends inside a pair that is
live when its turn comes.** All initial parts of the set are applied exactly only then; and so is
the set itself, if there are gaps between its ranges. -/
theorem deletes_exactly_iff (hm : Doc.Moment bs d) (ds : DeleteSet) :
    (d.Unsplit ds → Doc.Exact d (d.applyDeleteSet ds) ds.Names) ∧
    (d.Unsplit ds ↔ ∀ rs, rs <+: ds.rangeList → Doc.Exact d (d.applyRanges rs) (NamedIn rs)) ∧
    (ds.Built → (d.Unsplit ds ↔ Doc.Exact d (d.applyDeleteSet ds) ds.Names)) := by
  have hg := hm.gapless
  have hheld : ∀ rs x, NamedIn rs x → ¬d.Has x → (d.applyRanges rs).pendingDeletes.Names x :=
    fun rs x hx hhas => ((Doc.applyRanges_remembers hg hm.built rs).names x).2 (.inr ⟨hx, hhas⟩)
  have hnames : NamedIn ds.rangeList = ds.Names := funext fun x => propext DeleteSet.namedIn_rangeList
  have hwhole : d.Unsplit ds → Doc.Exact d (d.applyDeleteSet ds) ds.Names := fun h => by
    rw [Doc.applyDeleteSet_eq_ranges hg, ← hnames]
    exact ⟨(Doc.unsplit_iff hg).1 h _ List.prefix_rfl, hheld _⟩
  refine ⟨hwhole, ?_, fun hb => ⟨hwhole, fun h => ?_⟩⟩
  · rw [Doc.unsplit_iff hg]
    exact ⟨fun h rs hpre => ⟨h rs hpre, hheld rs⟩, fun h rs hpre => (h rs hpre).deleted⟩
  · have hmarks := (Doc.edits_applyDeleteSet hg ds).marks hg
    exact Doc.unsplit_of_pairs hb fun c k hlive => Doc.Deletes.pair hmarks hg h.deleted hlive

/-! ### Deleting half an emoji -/

namespace Sample

/-- Client 1 types a letter, an emoji and a letter: units 0, 1 and 2, and 3. -/
def around : Bytes := [1, 1, 1, 0, 4, 1, 1, 116, 6, 97, 0xF0, 0x9F, 0x98, 0x80, 98, 0]

/-- The delete set that names `len` units of client 1 from `clock` on. -/
def deleting (clock len : ℕ) : DeleteSet := SortedMap.ofList [(1, [⟨clock, len⟩])]

end Sample

/-- Naming the whole emoji deletes it and nothing else. -/
theorem emoji_deleted : Doc.Exact (Doc.replay [Sample.around])
    ((Doc.replay [Sample.around]).applyDeleteSet (Sample.deleting 1 2)) (Sample.deleting 1 2).Names := by
  have hmoment : Doc.Moment [Sample.around] (Doc.replay [Sample.around]) := .integrating .nil
  refine (deletes_exactly_iff hmoment (Sample.deleting 1 2)).1 fun rs c r hpre hpos k hk hlow => ?_
  have hlist : (Sample.deleting 1 2).rangeList = [(1, ⟨1, 2⟩)] := rfl
  have hmem : (c, r) ∈ (Sample.deleting 1 2).rangeList := hpre.subset (by simp)
  obtain ⟨rfl, rfl⟩ := Prod.mk.inj (List.mem_singleton.1 (hlist ▸ hmem))
  rw [Doc.lowAt_iff_isLow (Doc.replay_regular _).gapless] at hlow
  rcases hk with rfl | rfl <;> exact absurd hlow (by decide)

/-- Naming the second half of the emoji deletes the letter before it too; naming the first half
deletes nothing. -/
theorem emoji_deleted_by_half :
    ((Doc.replay [Sample.around]).applyDeleteSet (Sample.deleting 2 1)).Gone ⟨1, 0⟩ ∧
      ¬(Doc.replay [Sample.around]).Gone ⟨1, 0⟩ ∧ ¬(Sample.deleting 2 1).Names ⟨1, 0⟩ ∧
      ¬((Doc.replay [Sample.around]).applyDeleteSet (Sample.deleting 1 1)).Gone ⟨1, 1⟩ ∧
      (Sample.deleting 1 1).Names ⟨1, 1⟩ ∧ (Doc.replay [Sample.around]).Has ⟨1, 1⟩ := by
  unfold Doc.Gone DeleteSet.Names Covers Doc.Has
  decide +kernel

end YCollab.Crdt
