import YCollab.Yata.Insert
import Mathlib.Data.List.Induction
import Mathlib.Data.List.Perm.Basic
import Mathlib.Order.Nat

/-!
# Convergence

Insertions arrive in any order that respects what they depend on (`Causal`).  If the right
neighbour of every element is *anchored*, that is, was itself inserted at or before the origin
of that element, then all such orders of the same insertions build the same list
(`insertAll_eq`).

Anchoring is a fact about the list its author saw: whoever inserts between two neighbours of
one list anchors what they insert (`anchored_of_adjacent`).
-/

namespace Yata

namespace Ops

section Causal

variable {ι : Type*} (R : ι → ι → Prop) (U : ι → Prop)

/-- A sequence of distinct elements of `U` in which everything an element depends on comes
before it. -/
inductive Causal : List ι → Prop
  | nil : Causal []
  | snoc {w : List ι} {x : ι} : Causal w → U x → x ∉ w → (∀ y, U y → R x y → y ∈ w) →
      Causal (w ++ [x])

variable {R U} {w v : List ι} {x : ι}

namespace Causal

theorem snoc_inv (h : Causal R U (w ++ [x])) :
    Causal R U w ∧ U x ∧ x ∉ w ∧ ∀ y, U y → R x y → y ∈ w := by
  generalize hw : w ++ [x] = w' at h
  cases h with
  | nil => simp at hw
  | snoc h hU hx hR =>
    obtain ⟨rfl, hx'⟩ := List.append_inj' hw rfl
    cases hx'
    exact ⟨h, hU, hx, hR⟩

theorem mem_of (h : Causal R U w) (hx : x ∈ w) : U x := by
  induction h with
  | nil => cases hx
  | snoc _ hU _ _ ih =>
    rcases List.mem_append.1 hx with hx | hx
    · exact ih hx
    · rwa [List.mem_singleton.1 hx]

theorem nodup (h : Causal R U w) : w.Nodup := by
  induction h with
  | nil => exact List.nodup_nil
  | snoc _ _ hx _ ih =>
    refine List.nodup_append.2 ⟨ih, by simp, fun a ha b hb => ?_⟩
    rw [List.mem_singleton.1 hb]; rintro rfl; exact hx ha

theorem closed (h : Causal R U w) {y : ι} (hx : x ∈ w) (hy : U y) (hR : R x y) : y ∈ w := by
  induction h with
  | nil => cases hx
  | snoc _ _ _ hdep ih =>
    rcases List.mem_append.1 hx with hx | hx
    · exact List.mem_append_left _ (ih hx)
    · rw [List.mem_singleton.1 hx] at hR; exact List.mem_append_left _ (hdep y hy hR)

theorem append_filter [DecidableEq ι] (hv : Causal R U v) (hw : Causal R U w) :
    Causal R U (v ++ w.filter fun a => decide (a ∉ v)) := by
  induction hw with
  | nil => simpa using hv
  | @snoc w x _ hU hx hR ih =>
    by_cases hxv : x ∈ v
    · simpa [List.filter_append, hxv] using ih
    · rw [List.filter_append, List.filter_cons_of_pos (by simpa using hxv), List.filter_nil,
        ← List.append_assoc]
      refine ih.snoc hU (by simp [hxv, hx]) fun y hy hxy => ?_
      have := hR y hy hxy
      simp only [List.mem_append, List.mem_filter, decide_eq_true_eq]; tauto

theorem restrict {P : ι → Prop} [DecidablePred P] (h : Causal R U w) :
    Causal R (fun x => U x ∧ P x) (w.filter fun a => decide (P a)) := by
  induction h with
  | nil => exact .nil
  | @snoc w x _ hU hx hR ih =>
    by_cases hxP : P x
    · rw [List.filter_append, List.filter_cons_of_pos (by simpa using hxP), List.filter_nil]
      refine ih.snoc ⟨hU, hxP⟩ (by simp [hx]) fun y hy hxy => ?_
      simpa using ⟨hR y hy.1 hxy, hy.2⟩
    · simpa [List.filter_append, hxP] using ih

theorem filter {P : ι → Prop} [DecidablePred P] (h : Causal R U w)
    (hP : ∀ x ∈ w, P x → ∀ y, U y → R x y → P y) : Causal R U (w.filter fun a => decide (P a)) := by
  induction h with
  | nil => exact .nil
  | @snoc w x _ hU hx hR ih =>
    have ih := ih fun y hy => hP y (List.mem_append_left _ hy)
    by_cases hxP : P x
    · rw [List.filter_append, List.filter_cons_of_pos (by simpa using hxP), List.filter_nil]
      refine ih.snoc hU (by simp [hx]) fun y hy hxy => ?_
      simpa using ⟨hR y hy hxy, hP x (by simp) hxP y hy hxy⟩
    · simpa [List.filter_append, hxP] using ih

theorem mono {U' : ι → Prop} (h : Causal R U w) (hU : ∀ x, U x → U' x)
    (hdown : ∀ x y, U x → U' y → R x y → U y) : Causal R U' w := by
  induction h with
  | nil => exact .nil
  | snoc _ hx hnew hR ih => exact ih.snoc (hU _ hx) hnew fun y hy hxy => hR y (hdown _ y hx hy hxy) hxy

end Causal

theorem length_eq_of_mem_iff (h : Causal R U w) (h' : Causal R U v) (hm : ∀ a, a ∈ v ↔ a ∈ w) :
    v.length = w.length :=
  ((List.perm_ext_iff_of_nodup h'.nodup h.nodup).2 hm).length_eq

end Causal

variable {ι κ : Type*} [DecidableEq ι] [LinearOrder κ]
variable (I : Ops ι κ) (R : ι → ι → Prop) (U : ι → Prop)

/-- What insertions depend on: at least their neighbours, and one client's insertions on one
another. -/
structure Lawful : Prop where
  origin : ∀ {x o}, U x → I.origin x = some o → U o ∧ R x o
  right : ∀ {x t}, U x → I.right x = some t → U t ∧ R x t
  client : ∀ {x y}, U x → U y → I.client x = I.client y → x ≠ y → R x y ∨ R y x

/-- The right neighbour of `x` is a sibling of `x`, or was inserted after something that the
elements `x` depends on put before the origin of `x`. -/
def Anchored (x : ι) : Prop :=
  ∀ t, I.right x = some t → I.origin t = I.origin x ∨
    ∃ o, I.origin x = some o ∧ ∀ p, I.origin t = some p →
      ∃ v, Causal R U v ∧ (∀ y ∈ v, R x y) ∧ Before (I.insertAll v) p o

variable {I R U} in
theorem Anchored.mono {U' : ι → Prop} {x : ι} (h : I.Anchored R U x) (hU : ∀ x, U x → U' x)
    (hdown : ∀ x y, U x → U' y → R x y → U y) : I.Anchored R U' x := fun t ht =>
  (h t ht).imp_right fun ⟨o, ho, hp⟩ => ⟨o, ho, fun p hpt => by
    obtain ⟨v, hv, hx, hb⟩ := hp p hpt
    exact ⟨v, hv.mono hU hdown, hx, hb⟩⟩

/-- A sequence of insertions whose result does not depend on its order. -/
structure Good (w : List ι) : Prop where
  inv : I.Inv (I.insertAll w)
  mem_iff : ∀ a, a ∈ I.insertAll w ↔ a ∈ w
  insertable : ∀ u x, w = u ++ [x] → I.Insertable (I.insertAll u) x
  conv : ∀ w', Causal R U w' → (∀ a, a ∈ w' ↔ a ∈ w) → I.insertAll w' = I.insertAll w

variable {I R U} {w v : List ι} {x : ι}

theorem insertAll_snoc : I.insertAll (w ++ [x]) = I.insert (I.insertAll w) x := by
  simp [insertAll]

theorem Inv.nil : I.Inv [] where
  nodup := List.nodup_nil
  nested := fun _ _ h => by cases h
  ordered := fun _ _ _ h => h.elim

theorem before_insertAll_append {n : ℕ}
    (ih : ∀ w : List ι, w.length ≤ n → Causal R U w → (∀ x ∈ w, I.Anchored R U x) → I.Good R U w)
    {a b : ι} (r : List ι) (hc : Causal R U (v ++ r)) (ha : ∀ x ∈ v ++ r, I.Anchored R U x)
    (hn : (v ++ r).length ≤ n) (hab : Before (I.insertAll v) a b) :
    Before (I.insertAll (v ++ r)) a b := by
  induction r using List.reverseRecOn with
  | nil => simpa using hab
  | append_singleton r x ihr =>
    rw [← List.append_assoc] at hc ha hn ⊢
    have hc' := hc.snoc_inv.1
    have ha' : ∀ y ∈ v ++ r, I.Anchored R U y := fun y hy => ha y (List.mem_append_left _ hy)
    have hn' : (v ++ r).length ≤ n := by simp only [List.length_append] at hn ⊢; omega
    rw [insertAll_snoc]
    exact before_insert (ih _ hn' hc' ha').inv ((ih _ hn hc ha).insertable _ _ rfl)
      (ihr hc' ha' hn')

/-- The next insertion finds its neighbours where it needs them. -/
theorem insertable_of_good {n : ℕ} (hI : I.Lawful R U)
    (ih : ∀ w : List ι, w.length ≤ n → Causal R U w → (∀ x ∈ w, I.Anchored R U x) → I.Good R U w)
    (hn : w.length ≤ n) (hc : Causal R U (w ++ [x])) (ha : ∀ y ∈ w, I.Anchored R U y)
    (hx : I.Anchored R U x) : I.Insertable (I.insertAll w) x := by
  obtain ⟨hw, hUx, hxw, hdep⟩ := hc.snoc_inv
  have hg := ih w hn hw ha
  refine ⟨fun h => hxw ((hg.mem_iff x).1 h), fun o ho => ?_, fun t ht => ?_, fun t ht => ?_⟩
  · exact (hg.mem_iff o).2 (hdep o (hI.origin hUx ho).1 (hI.origin hUx ho).2)
  · exact (hg.mem_iff t).2 (hdep t (hI.right hUx ht).1 (hI.right hUx ht).2)
  · refine (hx t ht).imp id fun ⟨o, ho, hp⟩ => ⟨o, ho, fun p hpt => ?_⟩
    obtain ⟨v, hv, hvx, hb⟩ := hp p hpt
    -- build the list of `w` by starting with `v`
    have hvw : ∀ y ∈ v, y ∈ w := fun y hy => hdep y (hv.mem_of hy) (hvx y hy)
    have hm : ∀ a, a ∈ v ++ w.filter (fun a => decide (a ∉ v)) ↔ a ∈ w := by
      intro a
      simp only [List.mem_append, List.mem_filter, decide_eq_true_eq]
      have := hvw a
      tauto
    have hc' := hv.append_filter hw
    rw [← hg.conv _ hc' hm]
    refine before_insertAll_append ih _ hc' (fun y hy => ha y ((hm y).1 hy)) ?_ hb
    rw [length_eq_of_mem_iff hw hc' hm]; exact hn

/-- Two sequences that end differently are compared through a third one: leave both ends out,
and put them back in either order. -/
theorem conv_of_ne {n : ℕ} {u v : List ι} {a b : ι} (hI : I.Lawful R U)
    (ih : ∀ w : List ι, w.length ≤ n → Causal R U w → (∀ x ∈ w, I.Anchored R U x) → I.Good R U w)
    (hn : u.length ≤ n) (hu : Causal R U (u ++ [a])) (hv : Causal R U (v ++ [b]))
    (ha : ∀ y ∈ u ++ [a], I.Anchored R U y) (hm : ∀ y, y ∈ v ++ [b] ↔ y ∈ u ++ [a])
    (hab : a ≠ b) : I.insertAll (v ++ [b]) = I.insertAll (u ++ [a]) := by
  obtain ⟨hu', hUa, hau, hda⟩ := hu.snoc_inv
  obtain ⟨hv', hUb, hbv, hdb⟩ := hv.snoc_inv
  have hbu : b ∈ u := by
    have := (hm b).1 (by simp)
    simp only [List.mem_append, List.mem_singleton] at this
    exact this.resolve_right (Ne.symm hab)
  have hav : a ∈ v := by
    have := (hm a).2 (by simp)
    simp only [List.mem_append, List.mem_singleton] at this
    exact this.resolve_right hab
  have hmv : ∀ y, y ∈ v ↔ (y ∈ u ∧ y ≠ b) ∨ y = a := by
    intro y
    have := hm y
    simp only [List.mem_append, List.mem_singleton] at this
    constructor
    · intro hy
      have hyb : y ≠ b := by rintro rfl; exact hbv hy
      exact (this.1 (.inl hy)).imp (fun h => ⟨h, hyb⟩) id
    · rintro (⟨hy, hyb⟩ | rfl)
      · exact (this.2 (.inl hy)).resolve_right hyb
      · exact hav
  -- neither of the two depends on the other, nor does anything else
  have hnRb : ∀ y ∈ u, ¬ R y b := by
    intro y hy hyb
    by_cases hyv : y = b
    · rw [hyv] at hyb; exact hbv (hdb b hUb hyb)
    · exact hbv (hv'.closed ((hmv y).2 (.inl ⟨hy, hyv⟩)) hUb hyb)
  have hnab : ¬ R a b := fun h => hbv (hv'.closed hav hUb h)
  have hnba : ¬ R b a := fun h => hau (hu'.closed hbu hUa h)
  have hw0 := hu'.filter (P := fun y => y ≠ b) fun y hy _ z _ hyz hzb =>
    hnRb y hy (hzb ▸ hyz)
  set w0 := u.filter fun y => decide (y ≠ b) with hw0def
  have hm0 : ∀ y, y ∈ w0 ↔ y ∈ u ∧ y ≠ b := by simp [hw0def]
  have hcb : Causal R U (w0 ++ [b]) := by
    refine hw0.snoc hUb (by simp [hm0]) fun y hy hby => ?_
    have hyv := hdb y hy hby
    rcases (hmv y).1 hyv with h | rfl
    · exact (hm0 y).2 h
    · exact absurd hby hnba
  have hca : Causal R U (w0 ++ [a]) := by
    refine hw0.snoc hUa (by simp [hm0, hau]) fun y hy hay => (hm0 y).2 ⟨hda y hy hay, ?_⟩
    rintro rfl; exact hnab hay
  have hmb : ∀ y, y ∈ w0 ++ [b] ↔ y ∈ u := by
    intro y
    simp only [List.mem_append, hm0, List.mem_singleton]
    constructor
    · rintro (h | rfl)
      · exact h.1
      · exact hbu
    · intro h
      by_cases hyb : y = b
      · exact .inr hyb
      · exact .inl ⟨h, hyb⟩
  have hma : ∀ y, y ∈ w0 ++ [a] ↔ y ∈ v := by
    intro y
    simp only [List.mem_append, hm0, List.mem_singleton, hmv]
  have hanc : ∀ y ∈ u, I.Anchored R U y := fun y hy => ha y (List.mem_append_left _ hy)
  have hvn : v.length ≤ n := by
    have := length_eq_of_mem_iff hu hv hm
    simp only [List.length_append, List.length_singleton] at this; omega
  have hgu := ih u hn hu' hanc
  have hgv := ih v hvn hv' fun y hy =>
    ha y ((hm y).1 (List.mem_append_left _ hy))
  have hlen0 : w0.length ≤ n := (List.length_filter_le _ _).trans hn
  have hg0 := ih w0 hlen0 hw0 fun y hy => hanc y ((hm0 y).1 hy).1
  have hib := insertable_of_good hI ih hlen0 hcb (fun y hy => hanc y ((hm0 y).1 hy).1)
    (hanc b hbu)
  have hia := insertable_of_good hI ih hlen0 hca (fun y hy => hanc y ((hm0 y).1 hy).1)
    (ha a (by simp))
  have hclient : I.client b ≠ I.client a := fun h => by
    rcases hI.client hUb hUa h (Ne.symm hab) with h | h
    · exact hnba h
    · exact hnab h
  calc I.insertAll (v ++ [b])
      = I.insert (I.insertAll (w0 ++ [a])) b := by rw [insertAll_snoc, hgv.conv _ hca hma]
    _ = I.insert (I.insert (I.insertAll w0) a) b := by rw [insertAll_snoc]
    _ = I.insert (I.insert (I.insertAll w0) b) a := insert_comm hg0.inv hia hib hclient.symm
    _ = I.insert (I.insertAll (w0 ++ [b])) a := by rw [insertAll_snoc]
    _ = I.insertAll (u ++ [a]) := by rw [hgu.conv _ hcb hmb, insertAll_snoc]

theorem good_of_length_le (hI : I.Lawful R U) : ∀ (n : ℕ) (w : List ι), w.length ≤ n →
    Causal R U w → (∀ x ∈ w, I.Anchored R U x) → I.Good R U w := by
  intro n
  induction n with
  | zero =>
    intro w hn _ _
    obtain rfl : w = [] := List.length_eq_zero_iff.1 (by omega)
    refine ⟨Inv.nil, by simp [insertAll], by simp, fun w' _ hm => ?_⟩
    obtain rfl : w' = [] := List.eq_nil_iff_forall_not_mem.2 fun a ha => by simpa using (hm a).1 ha
    rfl
  | succ n ih =>
    intro w hn hc ha
    induction w using List.reverseRecOn with
    | nil => exact ih [] (by simp) hc ha
    | append_singleton u a _ =>
      have hun : u.length ≤ n := by simpa using hn
      have hanc : ∀ y ∈ u, I.Anchored R U y := fun y hy => ha y (List.mem_append_left _ hy)
      have hu := hc.snoc_inv.1
      have hg := ih u hun hu hanc
      have hins := insertable_of_good hI ih hun hc hanc (ha a (by simp))
      refine ⟨?_, fun b => ?_, fun u' x hux => ?_, fun w' hw' hm => ?_⟩
      · rw [insertAll_snoc]; exact hg.inv.insert hins
      · rw [insertAll_snoc, mem_insert hg.inv hins, hg.mem_iff]
        simp only [List.mem_append, List.mem_singleton]; tauto
      · obtain ⟨rfl, hx⟩ := List.append_inj' hux rfl
        cases hx; exact hins
      · induction w' using List.reverseRecOn with
        | nil => simpa using (hm a).2 (by simp)
        | append_singleton v b _ =>
          by_cases hab : a = b
          · subst hab
            obtain ⟨hv, -, hav, -⟩ := hw'.snoc_inv
            obtain ⟨-, -, hau, -⟩ := hc.snoc_inv
            rw [insertAll_snoc, insertAll_snoc, hg.conv v hv fun y => ?_]
            have := hm y
            simp only [List.mem_append, List.mem_singleton] at this
            constructor
            · intro hy; exact (this.1 (.inl hy)).resolve_right (by rintro rfl; exact hav hy)
            · intro hy; exact (this.2 (.inl hy)).resolve_right (by rintro rfl; exact hau hy)
          · exact conv_of_ne hI ih hun hc hw' ha hm hab

theorem good (hI : I.Lawful R U) (hc : Causal R U w) (ha : ∀ x ∈ w, I.Anchored R U x) :
    I.Good R U w := good_of_length_le hI _ w le_rfl hc ha

/-- **Convergence.**  The list does not depend on the order in which insertions arrive. -/
theorem insertAll_eq (hI : I.Lawful R U) (hw : Causal R U w) (hv : Causal R U v)
    (ha : ∀ x ∈ w, I.Anchored R U x) (hm : ∀ a, a ∈ v ↔ a ∈ w) :
    I.insertAll v = I.insertAll w := (good hI hw ha).conv v hv hm

theorem before_insertAll_mono (hI : I.Lawful R U) (hv : Causal R U v) (hw : Causal R U w)
    (ha : ∀ x ∈ w, I.Anchored R U x) (hvw : ∀ y ∈ v, y ∈ w) {a b : ι}
    (hab : Before (I.insertAll v) a b) : Before (I.insertAll w) a b := by
  have hm : ∀ a, a ∈ v ++ w.filter (fun a => decide (a ∉ v)) ↔ a ∈ w := by
    intro a
    simp only [List.mem_append, List.mem_filter, decide_eq_true_eq]
    have := hvw a
    tauto
  have hc := hv.append_filter hw
  rw [← insertAll_eq hI hw hc ha hm]
  exact before_insertAll_append (n := w.length)
    (fun w _ hw ha => good hI hw ha) _ hc (fun y hy => ha y ((hm y).1 hy))
    (length_eq_of_mem_iff hw hc hm).le hab

/-- What `x` depends on stands in the order it has in a larger list. -/
theorem before_restrict (hI : I.Lawful R U) (htrans : ∀ {x y z}, R x y → R y z → R x z)
    (hv : Causal R U v) (ha : ∀ y ∈ v, I.Anchored R U y) {a b : ι} (hxa : R x a) (hxb : R x b)
    (hab : Before (I.insertAll v) a b) :
    ∃ v', Causal R U v' ∧ (∀ y ∈ v', R x y) ∧ Before (I.insertAll v') a b := by
  classical
  have hv' := hv.filter (P := R x) fun y _ hxy z _ hyz => htrans hxy hyz
  set v' := v.filter fun a => decide (R x a) with hvdef
  have hmem : ∀ y, y ∈ v' ↔ y ∈ v ∧ R x y := by simp [hvdef]
  have hg := good hI hv ha
  have hg' := good hI hv' fun y hy => ha y ((hmem y).1 hy).1
  have ha' : a ∈ I.insertAll v' :=
    (hg'.mem_iff a).2 ((hmem a).2 ⟨(hg.mem_iff a).1 hab.mem_left, hxa⟩)
  have hb' : b ∈ I.insertAll v' :=
    (hg'.mem_iff b).2 ((hmem b).2 ⟨(hg.mem_iff b).1 hab.mem_right, hxb⟩)
  refine ⟨v', hv', fun y hy => ((hmem y).1 hy).2, ?_⟩
  have hne : a ≠ b := by
    rintro rfl
    exact hab.asymm hg.inv.nodup hab
  refine (before_or_before ha' hb' hne).resolve_right fun hba => ?_
  exact hab.asymm hg.inv.nodup
    (before_insertAll_mono hI hv' hv ha (fun y hy => ((hmem y).1 hy).1) hba)

/-- The two neighbours an insertion is made between: `o` is followed by `r` in `L`, where
`none` stands for the two ends. -/
def Adjacent (L : List ι) (o r : Option ι) : Prop :=
  ∃ A B, L = A ++ B ∧ A.getLast? = o ∧ B.head? = r

/-- **Inserting between neighbours anchors.**  If `x` is inserted between two neighbours of a
list built by causal insertions, its right neighbour is anchored. -/
theorem anchored_of_adjacent (hI : I.Lawful R U) (htrans : ∀ {x y z}, R x y → R y z → R x z)
    (hv : Causal R U v) (hx : U x) (ha : ∀ y ∈ v, I.Anchored R U y)
    (hadj : Adjacent (I.insertAll v) (I.origin x) (I.right x)) : I.Anchored R U x := by
  intro t ht
  obtain ⟨A, B, hAB, hA, hB⟩ := hadj
  have hg := good hI hv ha
  rw [ht] at hB
  obtain ⟨B', rfl⟩ := List.head?_eq_some_iff.1 hB
  have hn := hg.inv.nodup
  have hN := hg.inv.nested
  rw [hAB] at hn hN
  by_cases ho : I.origin t = I.origin x
  · exact .inl ho
  right
  -- the origin of `t` is shown before `t`, hence among `A`, hence before its last element
  have hpA : ∀ p, I.origin t = some p → p ∈ A := fun p hp => hN.origin_mem_of_append hn hp
  have hxo : I.origin x ≠ none := by
    intro hx0
    rw [hx0] at hA ho
    rw [List.getLast?_eq_none_iff] at hA
    subst hA
    obtain ⟨p, hp⟩ := Option.ne_none_iff_exists'.1 ho
    simpa using hpA p hp
  obtain ⟨o, hxo⟩ := Option.ne_none_iff_exists'.1 hxo
  refine ⟨o, hxo, fun p hp => ?_⟩
  rw [hxo] at hA ho
  obtain ⟨A', rfl⟩ := List.getLast?_eq_some_iff.1 hA
  have hpo : Before (I.insertAll v) p o := by
    rw [hAB]
    have hpA' : p ∈ A' := by
      have := hpA p hp
      simp only [List.mem_append, List.mem_singleton] at this
      exact this.resolve_right (by rintro rfl; exact ho hp)
    exact (before_of_mem hpA' (by simp)).append_left
  obtain ⟨hUt, hxt⟩ := hI.right hx ht
  obtain ⟨hUp, htp⟩ := hI.origin hUt hp
  exact before_restrict hI htrans hv ha (htrans hxt htp) (hI.origin hx hxo).2 hpo

end Ops

end Yata
