import Mathlib.Data.List.Basic
import Mathlib.Logic.Function.Basic

/-!
# Doubly-linked lists

A doubly-linked list kept in two maps, from a node to its left and to its right neighbour.
`Linked left right l` says that the nodes of `l` are linked in the order of `l`. Putting a new
node between two parts of a list relinks three nodes at most (`Linked.insert`), and a list is not
touched by changes to nodes outside it (`Linked.congr`).
-/

variable {ι : Type*}

/-- The nodes of `l` are linked in this order: every node knows the one before and the one
after it. -/
def Linked (left right : ι → Option ι) (l : List ι) : Prop :=
  ∀ A a B, l = A ++ a :: B → left a = A.getLast? ∧ right a = B.head?

namespace Linked

variable {left right left' right' : ι → Option ι} {l A B : List ι} {a x : ι}

theorem nil : Linked left right [] := by
  intro A a B h
  simp at h

theorem congr (h : Linked left right l) (hl : ∀ a ∈ l, left' a = left a)
    (hr : ∀ a ∈ l, right' a = right a) : Linked left' right' l := by
  rintro A a B rfl
  rw [hl a (by simp), hr a (by simp)]
  exact h A a B rfl

theorem left_eq (h : Linked left right (A ++ a :: B)) : left a = A.getLast? := (h A a B rfl).1

theorem right_eq (h : Linked left right (A ++ a :: B)) : right a = B.head? := (h A a B rfl).2

theorem split_cases {A' B' : List ι} (h : A ++ x :: B = A' ++ a :: B') :
    (∃ M, A = A' ++ a :: M ∧ B' = M ++ x :: B) ∨ (A = A' ∧ x = a ∧ B = B') ∨
      ∃ M, A' = A ++ x :: M ∧ B = M ++ a :: B' := by
  rcases List.append_eq_append_iff.1 h with ⟨M, hA', hB'⟩ | ⟨M, hA, hB'⟩
  · cases M with
    | nil => exact .inr (.inl ⟨by simpa using hA'.symm, List.cons.inj hB'⟩)
    | cons y M =>
      obtain ⟨rfl, hB⟩ := List.cons.inj hB'
      exact .inr (.inr ⟨M, hA', hB⟩)
  · cases M with
    | nil =>
      obtain ⟨hx, hB⟩ := List.cons.inj hB'
      exact .inr (.inl ⟨by simpa using hA, hx.symm, hB.symm⟩)
    | cons y M =>
      obtain ⟨rfl, hB⟩ := List.cons.inj hB'
      exact .inl ⟨M, hA, hB⟩

/-- Relink `x` between `A` and `B`. -/
theorem insert [DecidableEq ι] (h : Linked left right (A ++ B)) (hn : (A ++ x :: B).Nodup)
    (hl : ∀ y, left' y =
      if y = x then A.getLast? else if B.head? = some y then some x else left y)
    (hr : ∀ y, right' y =
      if y = x then B.head? else if A.getLast? = some y then some x else right y) :
    Linked left' right' (A ++ x :: B) := by
  obtain ⟨hnA, hnxB, hdisj⟩ := List.nodup_append.1 hn
  obtain ⟨hxB, hnB⟩ := List.nodup_cons.1 hnxB
  intro A' a B' heq
  rw [hl, hr]
  rcases split_cases heq with ⟨M, rfl, rfl⟩ | ⟨rfl, rfl, rfl⟩ | ⟨M, rfl, rfl⟩
  · -- left of the new node: only the last one has a new right neighbour
    have hax : a ≠ x := fun hax => hdisj a (by simp) x (by simp) hax
    have haB : B.head? ≠ some a := fun hhead =>
      hdisj a (by simp) a (List.mem_cons_of_mem _ (List.mem_of_head? hhead)) rfl
    obtain ⟨h1, h2⟩ := h A' a (M ++ B) (by simp)
    rw [if_neg hax, if_neg hax, if_neg haB]
    refine ⟨h1, ?_⟩
    cases M with
    | nil => simp
    | cons z M =>
      have hlast : (A' ++ a :: z :: M).getLast? ≠ some a := by
        rw [List.getLast?_append, List.getLast?_cons_cons]
        intro hz
        have hmem : a ∈ z :: M := List.mem_of_getLast? (by simpa [List.getLast?_cons] using hz)
        have := (List.nodup_append.1 hnA).2.1
        exact (List.nodup_cons.1 this).1 hmem
      rw [if_neg hlast, h2]
      simp
  · simp
  · -- right of the new node: only the first one has a new left neighbour
    have hax : a ≠ x := fun hax => hxB (by simp [hax])
    have haA : A.getLast? ≠ some a := fun hlast =>
      hdisj a (List.mem_of_getLast? hlast) a (by simp) rfl
    obtain ⟨h1, h2⟩ := h (A ++ M) a B' (by simp)
    rw [if_neg hax, if_neg hax, if_neg haA]
    refine ⟨?_, h2⟩
    cases M with
    | nil => simp
    | cons z M =>
      have hza : z ≠ a := by
        rintro rfl
        simp at hnB
      simp [hza, h1, List.getLast?_cons]

end Linked
