import Mathlib.Data.List.Nodup
import Mathlib.Tactic.Common

/-!
# The order in which a list shows its elements

`Before L a b` says that `a` is shown somewhere to the left of `b`.  On a list without
repetitions this is a strict linear order of its elements (`Before.asymm`, `Before.trans`,
`before_or_before`), it is all there is to know about the list (`eq_of_before_iff`), and
inserting a new element does not change it on the old ones (`before_insert_iff`).
-/

namespace Yata

variable {ι : Type*} {L U V : List ι} {a b c x : ι}

/-- `a` is shown to the left of `b` in `L`. -/
def Before : List ι → ι → ι → Prop
  | [], _, _ => False
  | c :: L, a, b => (a = c ∧ b ∈ L) ∨ Before L a b

@[simp] theorem before_nil : ¬ Before [] a b := id

theorem before_cons : Before (c :: L) a b ↔ (a = c ∧ b ∈ L) ∨ Before L a b := Iff.rfl

theorem before_append :
    Before (U ++ V) a b ↔ Before U a b ∨ (a ∈ U ∧ b ∈ V) ∨ Before V a b := by
  induction U with
  | nil => simp
  | cons c U ih => simp only [List.cons_append, before_cons, ih, List.mem_append, List.mem_cons]; tauto

theorem before_of_mem (ha : a ∈ U) (hb : b ∈ V) : Before (U ++ V) a b :=
  before_append.2 (.inr (.inl ⟨ha, hb⟩))

theorem Before.append_left (h : Before U a b) : Before (U ++ V) a b := before_append.2 (.inl h)

theorem Before.append_right (h : Before V a b) : Before (U ++ V) a b :=
  before_append.2 (.inr (.inr h))

theorem Before.mem_left (h : Before L a b) : a ∈ L := by
  induction L with
  | nil => exact h.elim
  | cons c L ih =>
    rcases h with ⟨rfl, -⟩ | h
    · exact List.mem_cons_self
    · exact List.mem_cons_of_mem _ (ih h)

theorem before_reverse : Before L.reverse a b ↔ Before L b a := by
  induction L with
  | nil => simp
  | cons c L ih =>
    simp only [List.reverse_cons, before_append, before_cons, ih, List.mem_reverse]
    simp [or_comm, and_comm]

theorem Before.mem_right (h : Before L a b) : b ∈ L := by
  induction L with
  | nil => exact h.elim
  | cons c L ih =>
    rcases h with ⟨-, h⟩ | h
    · exact List.mem_cons_of_mem _ h
    · exact List.mem_cons_of_mem _ (ih h)

theorem exists_before_iff : (∃ b, Before L a b) ↔ a ∈ L.dropLast := by
  induction L with
  | nil => simp
  | cons c L ih =>
    simp only [before_cons, exists_or, ih]
    cases L with
    | nil => simp
    | cons c' L => simp [List.dropLast_cons_cons]

theorem Before.asymm (hL : L.Nodup) (h : Before L a b) : ¬ Before L b a := by
  induction L with
  | nil => exact h.elim
  | cons c L ih =>
    obtain ⟨hc, hL⟩ := List.nodup_cons.1 hL
    rcases h with ⟨rfl, hb⟩ | h
    · rintro (⟨rfl, -⟩ | h')
      · exact hc hb
      · exact hc h'.mem_right
    · rintro (⟨rfl, -⟩ | h')
      · exact hc h.mem_right
      · exact ih hL h h'

theorem Before.irrefl (hL : L.Nodup) : ¬ Before L a a := fun h => h.asymm hL h

theorem Before.ne (hL : L.Nodup) (h : Before L a b) : a ≠ b := by
  rintro rfl; exact Before.irrefl hL h

theorem Before.trans (hL : L.Nodup) (h : Before L a b) (h' : Before L b c) : Before L a c := by
  induction L with
  | nil => exact h.elim
  | cons d L ih =>
    obtain ⟨hd, hL⟩ := List.nodup_cons.1 hL
    rcases h with ⟨rfl, hb⟩ | h
    · rcases h' with ⟨rfl, -⟩ | h'
      · exact absurd hb hd
      · exact .inl ⟨rfl, h'.mem_right⟩
    · rcases h' with ⟨rfl, -⟩ | h'
      · exact absurd h.mem_right hd
      · exact .inr (ih hL h h')

theorem before_or_before (ha : a ∈ L) (hb : b ∈ L) (hne : a ≠ b) :
    Before L a b ∨ Before L b a := by
  induction L with
  | nil => cases ha
  | cons c L ih =>
    rcases List.mem_cons.1 ha with rfl | ha'
    · exact .inl (.inl ⟨rfl, (List.mem_cons.1 hb).resolve_left hne.symm⟩)
    · rcases List.mem_cons.1 hb with rfl | hb'
      · exact .inr (.inl ⟨rfl, ha'⟩)
      · exact (ih ha' hb').imp .inr .inr

theorem before_insert_iff (ha : a ≠ x) (hb : b ≠ x) :
    Before (U ++ x :: V) a b ↔ Before (U ++ V) a b := by
  simp only [before_append, before_cons, List.mem_cons]; tauto

theorem before_insert_left (hx : x ∉ U ++ V) : Before (U ++ x :: V) a x ↔ a ∈ U := by
  simp only [List.mem_append, not_or] at hx
  have h1 : ¬ Before U a x := fun h => hx.1 h.mem_right
  have h2 : ¬ Before V a x := fun h => hx.2 h.mem_right
  simp only [before_append, before_cons, List.mem_cons]; tauto

theorem before_insert_right (hx : x ∉ U ++ V) : Before (U ++ x :: V) x b ↔ b ∈ V := by
  simp only [List.mem_append, not_or] at hx
  have h1 : ¬ Before U x b := fun h => hx.1 h.mem_left
  have h2 : ¬ Before V x b := fun h => hx.2 h.mem_left
  simp only [before_append, before_cons, List.mem_cons]; tauto

theorem Before.insert (h : Before (U ++ V) a b) : Before (U ++ x :: V) a b := by
  simp only [before_append, before_cons, List.mem_cons] at h ⊢; tauto

theorem Before.filter {p : ι → Bool} :
    Before (L.filter p) a b ↔ Before L a b ∧ p a = true ∧ p b = true := by
  induction L with
  | nil => simp
  | cons c L ih =>
    by_cases hc : p c = true
    · simp only [List.filter_cons_of_pos hc, before_cons, ih, List.mem_filter]
      constructor
      · rintro (⟨rfl, hb, hpb⟩ | ⟨h, ha, hb⟩)
        · exact ⟨.inl ⟨rfl, hb⟩, hc, hpb⟩
        · exact ⟨.inr h, ha, hb⟩
      · rintro ⟨⟨rfl, hb⟩ | h, ha, hpb⟩
        · exact .inl ⟨rfl, hb, hpb⟩
        · exact .inr ⟨h, ha, hpb⟩
    · rw [List.filter_cons_of_neg hc, ih, before_cons]
      constructor
      · rintro ⟨h, ha, hb⟩; exact ⟨.inr h, ha, hb⟩
      · rintro ⟨⟨rfl, -⟩ | h, ha, hb⟩
        · exact absurd ha hc
        · exact ⟨h, ha, hb⟩

/-- Two lists without repetitions that hold the same elements in the same order are equal. -/
theorem eq_of_before_iff : ∀ {L L' : List ι}, L.Nodup → L'.Nodup → (∀ a, a ∈ L ↔ a ∈ L') →
    (∀ a b, Before L a b → Before L' a b) → L = L'
  | [], [], _, _, _, _ => rfl
  | [], c :: L', _, _, hm, _ => absurd ((hm c).2 List.mem_cons_self) (by simp)
  | c :: L, [], _, _, hm, _ => absurd ((hm c).1 List.mem_cons_self) (by simp)
  | c :: L, c' :: L', hL, hL', hm, hb => by
    obtain ⟨hc, hLn⟩ := List.nodup_cons.1 hL
    obtain ⟨hc', hLn'⟩ := List.nodup_cons.1 hL'
    have hcc : c = c' := by
      by_contra hne
      have hin : c' ∈ L := (List.mem_cons.1 ((hm c').2 List.mem_cons_self)).resolve_left
        (Ne.symm hne)
      rcases hb c c' (.inl ⟨rfl, hin⟩) with ⟨h, -⟩ | h
      · exact hne h
      · exact hc' h.mem_right
    subst hcc
    have hmem : ∀ a, a ∈ L ↔ a ∈ L' := by
      intro a
      have := hm a
      simp only [List.mem_cons] at this
      constructor
      · intro ha
        exact (this.1 (.inr ha)).resolve_left (by rintro rfl; exact hc ha)
      · intro ha
        exact (this.2 (.inr ha)).resolve_left (by rintro rfl; exact hc' ha)
    rw [eq_of_before_iff hLn hLn' hmem]
    intro a b hab
    rcases hb a b (.inr hab) with ⟨rfl, -⟩ | h
    · exact absurd hab.mem_left hc
    · exact h

end Yata
