import YCollab.Crdt.Edits
import YCollab.Crdt.Ranges

/-!
# Applying delete sets

What a delete set names is deleted as far as it has been received, and remembered otherwise
(`applyDeleteSet_held`, `applyDeleteSet_gone`). What the document tells its peers has been deleted
is what is deleted in it and what it remembers (`names_deleteSet`, `names_deleteSetForUpdate`).
-/

namespace YCollab.Crdt

variable {d d' : Doc} {it : Item} {x : ID} {ds : DeleteSet}

theorem DeleteSet.names_iff : ds.Names x ↔ ∃ p ∈ ds.entries, p.1 = x.client ∧ Covers p.2 x.clock := by
  unfold DeleteSet.Names DeleteSet.ranges
  constructor
  · intro h
    cases hf : ds.find? x.client with
    | none => simp [hf] at h
    | some rs => exact ⟨_, SortedMap.find?_eq_some.1 hf, rfl, by simpa [hf] using h⟩
  · rintro ⟨⟨c, rs⟩, hp, rfl, h⟩
    rw [SortedMap.find?_eq_some.2 hp]
    exact h

namespace Doc

/-! ### What is remembered -/

/-- What is remembered after some ranges: what was remembered, and those of `N` beyond the clock. -/
structure Held (d d' : Doc) (N : ID → Prop) : Prop where
  edits : Edits d d'
  built : d'.pendingDeletes.Built
  names : ∀ x, d'.pendingDeletes.Names x ↔ d.pendingDeletes.Names x ∨ N x ∧ ¬d.Has x

theorem Held.trans {d'' : Doc} {N N' : ID → Prop} (h : Held d d' N) (h' : Held d' d'' N')
    (hg : d.store.Gapless) : Held d d'' fun x => N x ∨ N' x where
  edits := h.edits.trans h'.edits
  built := h'.built
  names x := by
    have hstate := (h.edits.marks hg).state
    have hhas : d'.Has x ↔ d.Has x := by
      unfold Has
      rw [hstate]
    rw [h'.names, h.names, hhas, or_assoc, or_and_right]

theorem applyRange_held (hg : d.store.Gapless) (hb : d.pendingDeletes.Built) (c : ℕ)
    (r : DeleteRange) :
    Held d (applyRange c (d.state c) d r)
      fun x => x.client = c ∧ r.clock ≤ x.clock ∧ x.clock < r.endClock := by
  have hkept : ∀ ds a b, (deleteRange { d with pendingDeletes := ds } c a b).pendingDeletes = ds :=
    fun ds a b => (trims_deleteRange (d := { d with pendingDeletes := ds }) hg ..).pendingDeletes
  refine ⟨edits_applyRange hg .., ?_, fun x => ?_⟩
  · unfold applyRange
    split
    next => exact hb.add
    next =>
      split
      next =>
        rw [hkept]
        exact hb.add
      next =>
        rw [hkept]
        exact hb
  · unfold applyRange Has
    split
    next hge =>
      rw [hb.names_add]
      refine or_congr_right ⟨fun ⟨h1, h2, h3⟩ => ⟨⟨h1, h2, h3⟩, ?_⟩, fun ⟨⟨h1, h2, h3⟩, _⟩ =>
        ⟨h1, h2, h3⟩⟩
      rw [h1]
      omega
    next hlt =>
      split
      next hgt =>
        rw [hkept, hb.names_add]
        refine or_congr_right ⟨fun ⟨h1, h2, h3⟩ => ⟨⟨h1, by omega, by omega⟩, ?_⟩,
          fun ⟨⟨h1, h2, h3⟩, h4⟩ => ?_⟩
        · rw [h1]
          omega
        · rw [h1] at h4
          exact ⟨h1, by omega, by omega⟩
      next hle =>
        rw [hkept]
        refine (or_iff_left ?_).symm
        rintro ⟨⟨h1, h2, h3⟩, h4⟩
        rw [h1] at h4
        omega

/-- What is deleted after some ranges: what was deleted, and those of `N` that were received. -/
def Deletes (d d' : Doc) (N : ID → Prop) : Prop := ∀ x, d'.Gone x ↔ d.Gone x ∨ N x ∧ d.Has x

theorem Deletes.trans {d'' : Doc} {N N' : ID → Prop} (h : Deletes d d' N) (h' : Deletes d' d'' N')
    (hm : Marks d d') : Deletes d d'' fun x => N x ∨ N' x := by
  intro x
  have hhas : d'.Has x ↔ d.Has x := by
    unfold Has
    rw [hm.state]
  rw [h', h, hhas, or_assoc, or_and_right]

/-- No boundary of the range lies inside a pair. -/
def CleanRange (d : Doc) (c : ℕ) (r : DeleteRange) : Prop :=
  ¬d.LowAt ⟨c, r.clock⟩ ∧ ¬d.LowAt ⟨c, r.endClock⟩

/-- A boundary of the range lies inside a pair that is live. -/
def CutsPair (d : Doc) (c : ℕ) (r : DeleteRange) : Prop :=
  0 < r.len ∧ (d.LivePair ⟨c, r.clock⟩ ∨ d.LivePair ⟨c, r.endClock⟩)

theorem CleanRange.not_cutsPair {c : ℕ} {r : DeleteRange} (h : d.CleanRange c r) :
    ¬d.CutsPair c r :=
  fun ⟨_, hcut⟩ => hcut.elim (fun hp => h.1 hp.1) fun hp => h.2 hp.1

theorem LowAt.has (hg : d.store.Gapless) (h : d.LowAt x) : d.Has x := by
  obtain ⟨it, hst, hx, -⟩ := h
  exact hst.has hg hx

/-- What a range deletes. -/
theorem applyRange_gone (hg : d.store.Gapless) {c : ℕ} {r : DeleteRange} (hr : ¬d.CutsPair c r) :
    Deletes d (applyRange c (d.state c) d r)
      fun x => x.client = c ∧ r.clock ≤ x.clock ∧ x.clock < r.endClock := by
  intro x
  have hstate : ¬d.LivePair ⟨c, d.state c⟩ := fun h => lt_irrefl _ (h.1.has hg)
  have hcut : 0 < r.len → ¬d.LivePair ⟨c, r.clock⟩ ∧ ¬d.LivePair ⟨c, r.endClock⟩ := fun hpos =>
    not_or.1 fun hcut => hr ⟨hpos, hcut⟩
  unfold applyRange
  split
  next hge =>
    refine (or_iff_left ?_).symm
    rintro ⟨⟨h1, h2, h3⟩, h4⟩
    unfold Has at h4
    rw [h1] at h4
    omega
  next hlt =>
    split
    next hgt =>
      have hpos : 0 < r.len := by
        unfold DeleteRange.endClock at hgt
        omega
      refine (deleteRange_gone (d := { d with
        pendingDeletes := DeleteSet.add d.pendingDeletes c (d.state c) (r.endClock - d.state c) })
        hg (fun _ => ⟨(hcut hpos).1, hstate⟩) le_rfl).trans ?_
      refine or_congr_right ⟨fun ⟨h1, h2, h3⟩ => ⟨⟨h1, h2, by omega⟩, by unfold Has; rwa [h1]⟩,
        fun ⟨⟨h1, h2, h3⟩, h4⟩ => ⟨h1, h2, by unfold Has at h4; rwa [h1] at h4⟩⟩
    next hle =>
      refine (deleteRange_gone hg (fun hab => hcut ?_) (by omega)).trans ?_
      · unfold DeleteRange.endClock at hab
        omega
      refine or_congr_right ⟨fun ⟨h1, h2, h3⟩ => ⟨⟨h1, h2, h3⟩, ?_⟩,
        fun ⟨⟨h1, h2, h3⟩, h4⟩ => ⟨h1, h2, h3⟩⟩
      unfold Has
      rw [h1]
      omega

theorem foldl_applyRange_held {c state : ℕ} (rs : List DeleteRange) (hg : d.store.Gapless)
    (hb : d.pendingDeletes.Built) (hstate : state = d.state c) :
    Held d (rs.foldl (applyRange c state) d) fun x => x.client = c ∧ Covers rs x.clock := by
  induction rs generalizing d with
  | nil => exact ⟨.refl, hb, fun x => by simp⟩
  | cons r rs ih =>
    have h := applyRange_held hg hb c r
    rw [← hstate] at h
    have hm := h.edits.marks hg
    have h' := ih hm.gapless h.built (hstate.trans (hm.state c).symm)
    have := h.trans h' hg
    exact ⟨this.edits, this.built, fun x => (this.names x).trans (by
      simp only [covers_cons, and_or_left])⟩

theorem foldl_applyRange_gone {c state : ℕ} (rs : List DeleteRange) (hg : d.store.Gapless)
    (hclean : ∀ r ∈ rs, d.CleanRange c r) (hstate : state = d.state c) :
    Deletes d (rs.foldl (applyRange c state) d) fun x => x.client = c ∧ Covers rs x.clock := by
  induction rs generalizing d with
  | nil => exact fun x => by simp
  | cons r rs ih =>
    have h := applyRange_gone hg (hclean r (by simp)).not_cutsPair
    rw [← hstate] at h
    have hm := (edits_applyRange hg c state r).marks hg
    have h' := ih hm.gapless
      (fun r' hr' => ⟨hm.lowAt (hclean r' (by simp [hr'])).1, hm.lowAt (hclean r' (by simp [hr'])).2⟩)
      (hstate.trans (hm.state c).symm)
    intro x
    refine (h.trans h' hm x).trans ?_
    simp only [covers_cons, and_or_left]

/-- **What a delete set leaves to be remembered.** -/
theorem applyDeleteSet_held (hg : d.store.Gapless) (hb : d.pendingDeletes.Built)
    (ds : DeleteSet) : Held d (d.applyDeleteSet ds) ds.Names := by
  have hfold : ∀ (es : List (ℕ × List DeleteRange)) {d : Doc}, d.store.Gapless →
      d.pendingDeletes.Built →
      Held d (es.foldl (fun d p => p.2.foldl (applyRange p.1 (d.state p.1)) d) d)
        fun x => ∃ p ∈ es, p.1 = x.client ∧ Covers p.2 x.clock := by
    intro es
    induction es with
    | nil => exact fun _ hb => ⟨.refl, hb, fun x => by simp⟩
    | cons e es ih =>
      intro d hg hb
      have h := foldl_applyRange_held e.2 hg hb (rfl : d.state e.1 = _)
      have h' := h.trans (ih (h.edits.marks hg).gapless h.built) hg
      exact ⟨h'.edits, h'.built, fun x => (h'.names x).trans (by
        simp only [List.mem_cons, exists_eq_or_imp, eq_comm (a := e.1)])⟩
  have h := hfold ds.entries hg hb
  exact ⟨h.edits, h.built, fun x =>
    (h.names x).trans (or_congr_right (and_congr_left' DeleteSet.names_iff.symm))⟩

/-- **What a delete set deletes**, when no boundary of its ranges lies inside a pair. -/
theorem applyDeleteSet_gone (hg : d.store.Gapless)
    (hclean : ∀ p ∈ ds.entries, ∀ r ∈ p.2, d.CleanRange p.1 r) :
    Deletes d (d.applyDeleteSet ds) ds.Names := by
  have hfold : ∀ (es : List (ℕ × List DeleteRange)) {d : Doc}, d.store.Gapless →
      (∀ p ∈ es, ∀ r ∈ p.2, d.CleanRange p.1 r) →
      Deletes d (es.foldl (fun d p => p.2.foldl (applyRange p.1 (d.state p.1)) d) d)
        fun x => ∃ p ∈ es, p.1 = x.client ∧ Covers p.2 x.clock := by
    intro es
    induction es with
    | nil => exact fun _ _ x => by simp
    | cons e es ih =>
      intro d hg hclean x
      have hm := (edits_ranges hg e.1 (d.state e.1) e.2).marks hg
      have h := foldl_applyRange_gone e.2 hg (hclean e (by simp)) (rfl : d.state e.1 = _)
      have h' := ih hm.gapless fun p hp r hr =>
        have hr' := hclean p (by simp [hp]) r hr
        ⟨hm.lowAt hr'.1, hm.lowAt hr'.2⟩
      refine (h.trans h' hm x).trans ?_
      simp only [List.mem_cons, exists_eq_or_imp, eq_comm (a := e.1)]
  exact fun x => (hfold ds.entries hg hclean x).trans
    (or_congr_right (and_congr_left' DeleteSet.names_iff.symm))

/-! ### What peers are told -/

/-- If each step keeps the set canonical and adds units, a fold adds those of all steps. -/
theorem foldl_names {α : Type} {f : DeleteSet → α → DeleteSet} {P : α → ID → Prop}
    (hf : ∀ {ds} a, ds.Built → (f ds a).Built ∧ ∀ x, (f ds a).Names x ↔ ds.Names x ∨ P a x)
    (l : List α) {ds : DeleteSet} (hb : ds.Built) :
    (l.foldl f ds).Built ∧ ∀ x, (l.foldl f ds).Names x ↔ ds.Names x ∨ ∃ a ∈ l, P a x := by
  induction l generalizing ds with
  | nil => exact ⟨hb, by simp⟩
  | cons a l ih =>
    obtain ⟨hb', hnames⟩ := hf a hb
    obtain ⟨h1, h2⟩ := ih hb'
    refine ⟨h1, fun x => (h2 x).trans ?_⟩
    rw [hnames, or_assoc]
    simp only [List.mem_cons, exists_eq_or_imp]

theorem deleteSet_spec (d : Doc) : d.deleteSet.Built ∧ ∀ x, d.deleteSet.Names x ↔ d.Gone x := by
  have hstruct : ∀ (c : ℕ) {ds : DeleteSet} (st : Struct), ds.Built →
      (if d.structDeleted st then DeleteSet.add ds c st.id.clock st.len else ds).Built ∧
      ∀ x, (if d.structDeleted st then DeleteSet.add ds c st.id.clock st.len else ds).Names x ↔
        ds.Names x ∨ x.client = c ∧ st.id.clock ≤ x.clock ∧ x.clock < st.endClock ∧
          d.structDeleted st = true := by
    intro c ds st hb
    by_cases hdel : d.structDeleted st = true
    · rw [if_pos hdel]
      exact ⟨hb.add, fun x => by simp only [hb.names_add, hdel, and_true, Struct.endClock]⟩
    · rw [if_neg hdel]
      exact ⟨hb, by simp [hdel]⟩
  obtain ⟨h1, h2⟩ :=
    foldl_names (fun p hb => foldl_names (hstruct p.1) p.2 hb) d.store.entries .empty
  refine ⟨h1, fun x => (h2 x).trans ?_⟩
  simp only [DeleteSet.names_empty, false_or]
  unfold Gone StructStore.structs
  constructor
  · rintro ⟨⟨c, l⟩, hp, st, hst, rfl, h⟩
    rw [SortedMap.find?_eq_some.2 hp]
    exact ⟨st, hst, h⟩
  · intro h
    cases hf : d.store.find? x.client with
    | none => simp [hf] at h
    | some l =>
      obtain ⟨st, hst, h⟩ := h
      exact ⟨_, SortedMap.find?_eq_some.1 hf, st, by simpa [hf] using hst, rfl, h⟩

/-- **What is deleted determines the delete set.** -/
theorem deleteSet_eq (h : ∀ x, d.Gone x ↔ d'.Gone x) : d.deleteSet = d'.deleteSet :=
  d.deleteSet_spec.1.ext d'.deleteSet_spec.1 fun x => by
    rw [d.deleteSet_spec.2, d'.deleteSet_spec.2, h]

theorem deleteSetForUpdate_spec (d : Doc) : d.deleteSetForUpdate.Built ∧
    ∀ x, d.deleteSetForUpdate.Names x ↔ d.Gone x ∨ d.pendingDeletes.Names x := by
  obtain ⟨hb, hgone⟩ := d.deleteSet_spec
  have hrange : ∀ (c : ℕ) {ds : DeleteSet} (r : DeleteRange), ds.Built →
      (DeleteSet.add ds c r.clock r.len).Built ∧
      ∀ x, (DeleteSet.add ds c r.clock r.len).Names x ↔
        ds.Names x ∨ x.client = c ∧ r.clock ≤ x.clock ∧ x.clock < r.endClock :=
    fun c _ r hb => ⟨hb.add, fun x => hb.names_add⟩
  obtain ⟨h1, h2⟩ :=
    foldl_names (fun p hb => foldl_names (hrange p.1) p.2 hb) d.pendingDeletes.entries hb
  refine ⟨h1, fun x => (h2 x).trans ?_⟩
  rw [hgone, DeleteSet.names_iff]
  refine or_congr_right (exists_congr fun p => and_congr_right fun _ => ?_)
  constructor
  · rintro ⟨r, hr, hc, hk⟩
    exact ⟨hc.symm, r, hr, hk⟩
  · rintro ⟨hc, r, hr, hk⟩
    exact ⟨r, hr, hc.symm, hk⟩

end Doc

end YCollab.Crdt
