import Mathlib.Order.Lattice
import YCollab.Yata.Before

/-!
# Ordering the elements inserted after one origin

Elements inserted after the same origin are *siblings*.  A new sibling `x` goes to the right of
the last one that both comes before the right neighbour `x` was inserted against and has a
smaller client (`Placed`).  Two siblings of different clients that are not each other's
neighbours can be placed in either order (`Placed.comm`), and whenever a sibling stands to the
left of one with a smaller client, its right neighbour is the reason (`ClientOrdered`).
-/

namespace Yata

/-- What is known of an insertion: the element it was made after, the element it was made
before, and who made it. -/
structure Ops (ι κ : Type*) where
  /-- The left neighbour at insertion time, `none` at the beginning of the list. -/
  origin : ι → Option ι
  /-- The right neighbour at insertion time, `none` at the end of the list. -/
  right : ι → Option ι
  /-- The author. -/
  client : ι → κ

namespace Ops

variable {ι κ : Type*} [LinearOrder κ] (I : Ops ι κ)

/-- `s` comes before the right neighbour of `x`, as far as `S` shows that neighbour. -/
def InSegment (S : List ι) (x s : ι) : Prop := ∀ t ∈ S, I.right x = some t → Before S s t

/-- `s` stays to the left of `x`: it is, or precedes, an element with a smaller client that
comes before the right neighbour of `x`. -/
def Low (S : List ι) (x s : ι) : Prop :=
  ∃ s' ∈ S, (s = s' ∨ Before S s s') ∧ I.client s' < I.client x ∧ I.InSegment S x s'

/-- `S'` is `S` with the new sibling `x` at its place. -/
def Placed (S : List ι) (x : ι) (S' : List ι) : Prop :=
  x ∉ S ∧ ∃ U V, S = U ++ V ∧ S' = U ++ x :: V ∧ ∀ s ∈ S, s ∈ U ↔ I.Low S x s

/-- Siblings are ordered by client, except where the right neighbour of one of them forces it
to the left. -/
def ClientOrdered (S : List ι) : Prop :=
  ∀ s t, Before S s t → I.client t < I.client s →
    ∃ q ∈ S, I.right s = some q ∧ (q = t ∨ Before S q t)

variable {I} {S S' : List ι} {x y : ι}

namespace Placed

theorem mem_iff (h : I.Placed S x S') {a : ι} : a ∈ S' ↔ a = x ∨ a ∈ S := by
  obtain ⟨-, U, V, rfl, rfl, -⟩ := h
  simp only [List.mem_append, List.mem_cons]; tauto

theorem nodup (h : I.Placed S x S') (hS : S.Nodup) : S'.Nodup := by
  obtain ⟨hx, U, V, rfl, rfl, -⟩ := h
  exact List.nodup_middle.2 (List.nodup_cons.2 ⟨hx, hS⟩)

theorem before_iff (h : I.Placed S x S') {a b : ι} (ha : a ≠ x) (hb : b ≠ x) :
    Before S' a b ↔ Before S a b := by
  obtain ⟨-, U, V, rfl, rfl, -⟩ := h
  exact before_insert_iff ha hb

theorem before_mono (h : I.Placed S x S') {a b : ι} (hab : Before S a b) : Before S' a b :=
  (h.before_iff (by rintro rfl; exact h.1 hab.mem_left)
    (by rintro rfl; exact h.1 hab.mem_right)).2 hab

theorem before_left (h : I.Placed S x S') {a : ι} (ha : a ∈ S) :
    Before S' a x ↔ I.Low S x a := by
  obtain ⟨hx, U, V, rfl, rfl, hU⟩ := h
  rw [before_insert_left hx, hU a ha]

theorem before_right (h : I.Placed S x S') (hS : S.Nodup) {a : ι} (ha : a ∈ S) :
    Before S' x a ↔ ¬ I.Low S x a := by
  rw [← h.before_left ha]
  have hne : a ≠ x := by rintro rfl; exact h.1 ha
  constructor
  · exact fun h' => h'.asymm (h.nodup hS)
  · exact (before_or_before (h.mem_iff.2 (.inl rfl)) (h.mem_iff.2 (.inr ha)) hne.symm).resolve_right

theorem unique {S'' : List ι} (hS : S.Nodup) (h : I.Placed S x S') (h' : I.Placed S x S'') :
    S' = S'' := by
  refine eq_of_before_iff (h.nodup hS) (h'.nodup hS) (fun a => by rw [h.mem_iff, h'.mem_iff])
    fun a b hab => ?_
  have hne := hab.ne (h.nodup hS)
  rcases h.mem_iff.1 hab.mem_left with rfl | ha
  · have hb := (h.mem_iff.1 hab.mem_right).resolve_left hne.symm
    exact (h'.before_right hS hb).2 ((h.before_right hS hb).1 hab)
  · rcases h.mem_iff.1 hab.mem_right with rfl | hb
    · exact (h'.before_left ha).2 ((h.before_left ha).1 hab)
    · exact h'.before_mono ((h.before_iff (by rintro rfl; exact h.1 ha)
        (by rintro rfl; exact h.1 hb)).1 hab)

theorem before_right_neighbour (h : I.Placed S x S') (hS : S.Nodup) {t : ι} (ht : t ∈ S)
    (hr : I.right x = some t) : Before S' x t := by
  rw [h.before_right hS ht]
  rintro ⟨s', hs', hle, -, hseg⟩
  have := hseg t ht hr
  rcases hle with rfl | hle
  · exact this.irrefl hS
  · exact this.asymm hS hle

theorem inSegment_iff (h : I.Placed S y S') {s : ι} (hs : s ∈ S) (hxy : I.right x ≠ some y) :
    I.InSegment S' x s ↔ I.InSegment S x s := by
  have hsy : s ≠ y := by rintro rfl; exact h.1 hs
  constructor
  · intro hseg t ht hr
    have hty : t ≠ y := by rintro rfl; exact h.1 ht
    exact (h.before_iff hsy hty).1 (hseg t (h.mem_iff.2 (.inr ht)) hr)
  · intro hseg t ht hr
    have hty : t ≠ y := by rintro rfl; exact hxy hr
    exact (h.before_iff hsy hty).2 (hseg t ((h.mem_iff.1 ht).resolve_left hty) hr)

theorem low_iff (h : I.Placed S y S') (hS : S.Nodup) {s : ι} (hs : s ∈ S)
    (hxy : I.right x ≠ some y) : I.Low S' x s ↔ I.Low S x s := by
  have hne : ∀ {a}, a ∈ S → a ≠ y := fun ha => by rintro rfl; exact h.1 ha
  constructor
  · rintro ⟨s', hs', hle, hc, hseg⟩
    rcases h.mem_iff.1 hs' with rfl | hs'
    · -- `y` itself pushes `s` to the left of `x`: then so does what pushes `s` left of `y`
      have hlow : Before S' s s' := hle.resolve_left (hne hs)
      obtain ⟨s'', hs'', hle'', hc'', hseg''⟩ := (h.before_left hs).1 hlow
      have hs''y : Before S' s'' s' :=
        (h.before_left hs'').2 ⟨s'', hs'', .inl rfl, hc'', hseg''⟩
      refine ⟨s'', hs'', hle'', hc''.trans hc, (h.inSegment_iff hs'' hxy).1 fun t ht hr => ?_⟩
      exact hs''y.trans (h.nodup hS) (hseg t ht hr)
    · refine ⟨s', hs', ?_, hc, (h.inSegment_iff hs' hxy).1 hseg⟩
      exact hle.imp id fun hb => (h.before_iff (hne hs) (hne hs')).1 hb
  · rintro ⟨s', hs', hle, hc, hseg⟩
    refine ⟨s', h.mem_iff.2 (.inr hs'), ?_, hc, (h.inSegment_iff hs' hxy).2 hseg⟩
    exact hle.imp id fun hb => (h.before_iff (hne hs) (hne hs')).2 hb

theorem clientOrdered (h : I.Placed S x S') (hS : S.Nodup) (ho : I.ClientOrdered S) :
    I.ClientOrdered S' := by
  intro s t hst hc
  by_cases hs : s = x
  · subst hs
    have ht : t ∈ S := (h.mem_iff.1 hst.mem_right).resolve_left (hst.ne (h.nodup hS)).symm
    have hnot := (h.before_right hS ht).1 hst
    -- `t` would have pushed `x` to its right, unless it is beyond the right neighbour
    have hseg : ¬ I.InSegment S s t := fun hseg => hnot ⟨t, ht, .inl rfl, hc, hseg⟩
    simp only [InSegment, not_forall] at hseg
    obtain ⟨q, hq, hr, hb⟩ := hseg
    refine ⟨q, h.mem_iff.2 (.inr hq), hr, ?_⟩
    by_cases hqt : q = t
    · exact .inl hqt
    · exact .inr (((h.before_iff (by rintro rfl; exact h.1 hq) (by rintro rfl; exact h.1 ht))).2
        ((before_or_before hq ht hqt).resolve_right hb))
  · have hsS : s ∈ S := (h.mem_iff.1 hst.mem_left).resolve_left hs
    by_cases ht : t = x
    · subst ht
      obtain ⟨s', hs', hle, hc', hseg⟩ := (h.before_left hsS).1 hst
      have hne : s ≠ s' := by rintro rfl; exact (hc.trans hc').false
      obtain ⟨q, hq, hr, hqs⟩ := ho s s' (hle.resolve_left hne) (hc'.trans hc)
      refine ⟨q, h.mem_iff.2 (.inr hq), hr, .inr ((h.before_left hq).2 ⟨s', hs', hqs, hc', hseg⟩)⟩
    · have htS : t ∈ S := (h.mem_iff.1 hst.mem_right).resolve_left ht
      obtain ⟨q, hq, hr, hqt⟩ := ho s t ((h.before_iff hs ht).1 hst) hc
      refine ⟨q, h.mem_iff.2 (.inr hq), hr, hqt.imp id fun hb => ?_⟩
      exact (h.before_iff (by rintro rfl; exact h.1 hq) ht).2 hb

section Commutation

variable {Sx Sy Sxy Syx : List ι}

/-- If `y`, placed after `x`, goes to the right of `x`, then `x`, placed after `y`, does not go
to the right of `y`. -/
theorem not_both_low (hS : S.Nodup) (hx : I.Placed S x Sx) (hy : I.Placed S y Sy)
    (hrx : I.right x ≠ some y) (hry : I.right y ≠ some x)
    (h1 : I.Low Sx y x) : ¬ I.Low Sy x y := by
  rintro ⟨s2, hs2, hle2, hc2, hseg2⟩
  obtain ⟨s1, hs1, hle1, hc1, hseg1⟩ := h1
  have hSx := hx.nodup hS
  have hSy := hy.nodup hS
  have nex : ∀ {a}, a ∈ S → a ≠ x := fun ha => by rintro rfl; exact hx.1 ha
  have ney : ∀ {a}, a ∈ S → a ≠ y := fun ha => by rintro rfl; exact hy.1 ha
  -- the element that pushes one of them is an old sibling, or the other one
  rcases hx.mem_iff.1 hs1 with rfl | hs1S
  · rcases hy.mem_iff.1 hs2 with rfl | hs2S
    · exact (hc1.trans hc2).false
    · have hb2 : Before Sy y s2 := hle2.resolve_left (ney hs2S).symm
      have hn2 : ¬ I.Low S y s2 := (hy.before_right hS hs2S).1 hb2
      have hseg : ¬ I.InSegment S y s2 := fun hseg =>
        hn2 ⟨s2, hs2S, .inl rfl, hc2.trans hc1, hseg⟩
      simp only [InSegment, not_forall] at hseg
      obtain ⟨t, ht, hr, hb⟩ := hseg
      have hlow : I.Low S s1 s2 := ⟨s2, hs2S, .inl rfl, hc2, (hy.inSegment_iff hs2S hrx).1 hseg2⟩
      have h2x : Before Sx s2 s1 := (hx.before_left hs2S).2 hlow
      have hxt : Before Sx s1 t := hseg1 t (hx.mem_iff.2 (.inr ht)) hr
      exact hb ((hx.before_iff (nex hs2S) (nex ht)).1 (h2x.trans hSx hxt))
  · have hb1 : Before Sx x s1 := hle1.resolve_left (nex hs1S).symm
    have hn1 : ¬ I.Low S x s1 := (hx.before_right hS hs1S).1 hb1
    have hlow1 : I.Low S y s1 := ⟨s1, hs1S, .inl rfl, hc1, (hx.inSegment_iff hs1S hry).1 hseg1⟩
    have h1y : Before Sy s1 y := (hy.before_left hs1S).2 hlow1
    rcases hy.mem_iff.1 hs2 with rfl | hs2S
    · have hseg : ¬ I.InSegment S x s1 := fun hseg =>
        hn1 ⟨s1, hs1S, .inl rfl, hc1.trans hc2, hseg⟩
      simp only [InSegment, not_forall] at hseg
      obtain ⟨t, ht, hr, hb⟩ := hseg
      have hyt : Before Sy s2 t := hseg2 t (hy.mem_iff.2 (.inr ht)) hr
      exact hb ((hy.before_iff (ney hs1S) (ney ht)).1 (h1y.trans hSy hyt))
    · have hb2 : Before Sy y s2 := hle2.resolve_left (ney hs2S).symm
      have hlow2 : I.Low S x s2 := ⟨s2, hs2S, .inl rfl, hc2, (hy.inSegment_iff hs2S hrx).1 hseg2⟩
      have h2x : Before Sx s2 x := (hx.before_left hs2S).2 hlow2
      have h12 : Before S s1 s2 := (hy.before_iff (ney hs1S) (ney hs2S)).1 (h1y.trans hSy hb2)
      have h21 : Before S s2 s1 := (hx.before_iff (nex hs2S) (nex hs1S)).1 (h2x.trans hSx hb1)
      exact h12.asymm hS h21

theorem low_of_client_lt (hS : S.Nodup) (hx : I.Placed S x Sx) (hy : I.Placed S y Sy)
    (hrx : I.right x ≠ some y) (hry : I.right y ≠ some x) (hc : I.client x < I.client y) :
    I.Low Sx y x ∨ I.Low Sy x y := by
  by_cases hseg : I.InSegment Sx y x
  · exact .inl ⟨x, hx.mem_iff.2 (.inl rfl), .inl rfl, hc, hseg⟩
  · -- the right neighbour of `y` stands to the left of `x`
    simp only [InSegment, not_forall] at hseg
    obtain ⟨t, ht, hr, hb⟩ := hseg
    have htx : t ≠ x := by rintro rfl; exact hry hr
    have htS : t ∈ S := (hx.mem_iff.1 ht).resolve_left htx
    have htx' : Before Sx t x :=
      (before_or_before ht (hx.mem_iff.2 (.inl rfl)) htx).resolve_right hb
    obtain ⟨s2, hs2, hle, hc2, hseg2⟩ := (hx.before_left htS).1 htx'
    have hyt := hy.before_right_neighbour hS htS hr
    refine .inr ⟨s2, hy.mem_iff.2 (.inr hs2), .inr ?_, hc2, (hy.inSegment_iff hs2 hrx).2 hseg2⟩
    rcases hle with rfl | hle
    · exact hyt
    · exact hyt.trans (hy.nodup hS) (hy.before_mono hle)

/-- **Siblings of different clients can be placed in either order.** -/
theorem comm (hS : S.Nodup) (hx : I.Placed S x Sx) (hxy : I.Placed Sx y Sxy)
    (hy : I.Placed S y Sy) (hyx : I.Placed Sy x Syx) (hc : I.client x ≠ I.client y)
    (hrx : I.right x ≠ some y) (hry : I.right y ≠ some x) : Sxy = Syx := by
  have hSx := hx.nodup hS
  have hSy := hy.nodup hS
  refine eq_of_before_iff (hxy.nodup hSx) (hyx.nodup hSy) (fun a => ?_) fun a b hab => ?_
  · rw [hxy.mem_iff, hx.mem_iff, hyx.mem_iff, hy.mem_iff]; tauto
  have hne : x ≠ y := by rintro rfl; exact hc rfl
  have nex : ∀ {a}, a ∈ S → a ≠ x := fun ha => by rintro rfl; exact hx.1 ha
  have ney : ∀ {a}, a ∈ S → a ≠ y := fun ha => by rintro rfl; exact hy.1 ha
  have mx : ∀ {a}, a ∈ S → a ∈ Sx := fun ha => hx.mem_iff.2 (.inr ha)
  have my : ∀ {a}, a ∈ S → a ∈ Sy := fun ha => hy.mem_iff.2 (.inr ha)
  have hxSx : x ∈ Sx := hx.mem_iff.2 (.inl rfl)
  have hySy : y ∈ Sy := hy.mem_iff.2 (.inl rfl)
  have hab' := hab.ne (hxy.nodup hSx)
  rcases hxy.mem_iff.1 hab.mem_left with rfl | ha
  · rcases hxy.mem_iff.1 hab.mem_right with rfl | hb
    · exact absurd rfl hab'
    · rcases hx.mem_iff.1 hb with rfl | hbS
      · -- `y` before `x`
        have h1 : ¬ I.Low Sx a b := (hxy.before_right hSx hxSx).1 hab
        rw [hyx.before_left hySy]
        rcases lt_or_gt_of_ne hc with hlt | hlt
        · exact (low_of_client_lt hS hx hy hrx hry hlt).resolve_left h1
        · exact (low_of_client_lt hS hy hx hry hrx hlt).resolve_right h1
      · have h1 : ¬ I.Low S a b := by
          rw [← hx.low_iff hS hbS hry]; exact (hxy.before_right hSx (mx hbS)).1 hab
        exact hyx.before_mono ((hy.before_right hS hbS).2 h1)
  · rcases hx.mem_iff.1 ha with rfl | haS
    · rcases hxy.mem_iff.1 hab.mem_right with rfl | hb
      · -- `x` before `y`
        have h1 : I.Low Sx b a := (hxy.before_left hxSx).1 hab
        exact (hyx.before_right hSy hySy).2 (not_both_low hS hx hy hrx hry h1)
      · have hbS : b ∈ S := (hx.mem_iff.1 hb).resolve_left hab'.symm
        have h1 : ¬ I.Low S a b := (hx.before_right hS hbS).1
          ((hxy.before_iff hne (ney hbS)).1 hab)
        rw [hyx.before_right hSy (my hbS), hy.low_iff hS hbS hrx]
        exact h1
    · rcases hxy.mem_iff.1 hab.mem_right with rfl | hb
      · have h1 : I.Low S b a := by
          rw [← hx.low_iff hS haS hry]; exact (hxy.before_left (mx haS)).1 hab
        exact hyx.before_mono ((hy.before_left haS).2 h1)
      · rcases hx.mem_iff.1 hb with rfl | hbS
        · have h1 : I.Low S b a := (hx.before_left haS).1
            ((hxy.before_iff (ney haS) hne).1 hab)
          rw [hyx.before_left (my haS), hy.low_iff hS haS hrx]
          exact h1
        · exact hyx.before_mono (hy.before_mono ((hx.before_iff (nex haS) (nex hbS)).1
            ((hxy.before_iff (ney haS) (ney hbS)).1 hab)))

end Commutation

end Placed

end Ops

end Yata
