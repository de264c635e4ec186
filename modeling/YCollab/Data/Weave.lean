import Mathlib.Data.List.Basic
import Mathlib.Data.List.Induction
import YCollab.Data.Linked
import YCollab.Yata.Before

/-!
# Linked elements without cycles

Two partial maps `left` and `right` on some elements, as a program has that links records by
pointers and may put one and the same record at the end of several chains. `Weave left right ord`
says that `right` always goes forward in the order `ord` of all elements, so following it ends
(`Weave.exists_path`), and that `left` goes backwards along it, so following it ends as well
(`Weave.exists_path_left`). Putting a new element between an element and the one to its right, or in
front of any element, keeps this (`Weave.insert`).
-/

namespace Links

open Yata

variable {ι : Type*}

/-- Following `next` from `x` visits the elements of the list, and ends. -/
inductive Path (next : ι → Option ι) : Option ι → List ι → Prop
  | nil : Path next none []
  | cons {x : ι} {l : List ι} : Path next (next x) l → Path next (some x) (x :: l)

theorem Path.unique {next : ι → Option ι} {x : Option ι} {l l' : List ι} (h : Path next x l)
    (h' : Path next x l') : l = l' := by
  induction h generalizing l' with
  | nil =>
    cases h'
    rfl
  | cons _ ih =>
    cases h' with
    | cons h' => rw [ih h']

theorem Path.of_linked {left right : ι → Option ι} {A B : List ι} (h : Linked left right (A ++ B)) :
    Path right B.head? B := by
  induction B generalizing A with
  | nil => exact .nil
  | cons b B ih =>
    refine .cons ?_
    rw [h.right_eq]
    exact ih (A := A ++ [b]) (by simpa using h)

theorem Path.of_linked_left {left right : ι → Option ι} {A B : List ι}
    (h : Linked left right (A ++ B)) : Path left A.getLast? A.reverse := by
  induction A using List.reverseRecOn generalizing B with
  | nil => exact .nil
  | append_singleton A a ih =>
    have h' : Linked left right (A ++ a :: B) := by simpa using h
    rw [List.getLast?_concat, List.reverse_append]
    refine .cons ?_
    rw [h'.left_eq]
    exact ih h'

theorem Path.expand [DecidableEq ι] {next next' : ι → Option ι} {o : Option ι} {l : List ι} {a b : ι}
    (h : Path next o l) (hb : b ∉ l) (hab : a ≠ b)
    (hnext : ∀ y, next' y = if y = a then some b else if y = b then next a else next y) :
    Path next' o (l.flatMap fun y => if y = a then [a, b] else [y]) := by
  induction h with
  | nil => exact .nil
  | @cons x l _ ih =>
    have ih := ih fun hm => hb (List.mem_cons_of_mem _ hm)
    rw [List.flatMap_cons]
    by_cases hx : x = a
    · subst hx
      rw [if_pos rfl]
      refine .cons ?_
      rw [hnext, if_pos rfl]
      refine .cons ?_
      rwa [hnext, if_neg hab.symm, if_pos rfl]
    · have hxb : x ≠ b := fun h => hb (h ▸ List.mem_cons_self)
      rw [if_neg hx]
      refine .cons ?_
      rwa [hnext, if_neg hx, if_neg hxb]

/-- Links that go forward in `ord` end. -/
theorem Path.exists_of_forward {next : ι → Option ι} {ord : List ι} {x : ι} (hn : ord.Nodup)
    (hnext : ∀ {a b}, next a = some b → Before ord a b) (hx : x ∈ ord) :
    ∃ l, Path next (some x) l ∧ l.length ≤ ord.length ∧ ∀ y ∈ l, y ∈ ord := by
  obtain ⟨A, B, hord⟩ := List.append_of_mem hx
  suffices ∃ l, Path next (some x) l ∧ l.length ≤ B.length + 1 ∧ ∀ y ∈ l, y ∈ ord by
    obtain ⟨l, hl, hlen, hmem⟩ := this
    refine ⟨l, hl, ?_, hmem⟩
    simp [hord]
    omega
  clear hx
  -- what follows `x` is among what comes later
  induction hlen : B.length using Nat.strongRecOn generalizing A x B with
  | _ n ih =>
    cases hx : next x with
    | none => exact ⟨[x], .cons (by rw [hx]; exact .nil), by simp, by simp [hord]⟩
    | some y =>
      have hy : y ∈ B := by
        have hb := hnext hx
        rw [hord] at hb hn
        exact (before_insert_right (List.nodup_cons.1 (List.nodup_middle.1 hn)).1).1 hb
      obtain ⟨B₁, B₂, rfl⟩ := List.append_of_mem hy
      obtain ⟨l, hl, hlen', hmem⟩ := ih B₂.length (by simp at hlen; omega) (x := y)
        (A ++ x :: B₁) B₂ (by simp [hord]) rfl
      refine ⟨x :: l, .cons (by rw [hx]; exact hl), ?_, ?_⟩
      · simp at hlen ⊢
        omega
      · intro z hz
        rcases List.mem_cons.1 hz with rfl | hz
        · simp [hord]
        · exact hmem z hz

/-- The links go forward in `ord`, and backwards along each other. -/
structure Weave (left right : ι → Option ι) (ord : List ι) : Prop where
  nodup : ord.Nodup
  forward : ∀ {a b}, right a = some b → Before ord a b
  back : ∀ {a b}, left a = some b → right b = some a

namespace Weave

variable {left right left' right' : ι → Option ι} {ord A B : List ι} {x : ι}

theorem empty : Weave (fun _ => none) (fun _ => none) ([] : List ι) :=
  ⟨List.nodup_nil, nofun, nofun⟩

theorem not_cycle (h : Weave left right ord) :
    ¬Relation.TransGen (fun a b => right a = some b) x x := by
  have hbefore : ∀ {y}, Relation.TransGen (fun a b => right a = some b) x y → Before ord x y := by
    intro y hy
    induction hy with
    | single hxy => exact h.forward hxy
    | tail _ hyz ih => exact ih.trans h.nodup (h.forward hyz)
  exact fun hx => (hbefore hx).irrefl h.nodup

theorem exists_path (h : Weave left right ord) (hx : x ∈ ord) :
    ∃ l, Path right (some x) l ∧ l.length ≤ ord.length ∧ ∀ y ∈ l, y ∈ ord :=
  Path.exists_of_forward h.nodup h.forward hx

theorem exists_path_left (h : Weave left right ord) (hx : x ∈ ord) :
    ∃ l, Path left (some x) l ∧ l.length ≤ ord.length ∧ ∀ y ∈ l, y ∈ ord := by
  simpa using Path.exists_of_forward (List.nodup_reverse.2 h.nodup)
    (fun hab => before_reverse.2 (h.forward (h.back hab))) (List.mem_reverse.2 hx)

variable [DecidableEq ι] {L R : Option ι}

/-- **A new element between linked ones.**  `x` is put after `L` and before `R`, the right neighbour
of `L`; without `L` it is put in front of `R`, whatever `R` has to its left. -/
theorem insert (h : Weave left right (A ++ B)) (hx : x ∉ A ++ B) (hL : ∀ l, L = some l → l ∈ A)
    (hR : ∀ r, R = some r → r ∈ B) (hLR : ∀ l, L = some l → R = right l)
    (hleft : ∀ y, left' y = if R = some y then some x else if y = x then L else left y)
    (hright : ∀ y, right' y = if y = x then R else if L = some y then some x else right y) :
    Weave left' right' (A ++ x :: B) := by
  have hne : ∀ {a b}, right a = some b → a ≠ x ∧ b ≠ x := fun hab => by
    have hb := h.forward hab
    exact ⟨fun h => hx (h ▸ hb.mem_left), fun h => hx (h ▸ hb.mem_right)⟩
  refine ⟨?_, fun {a b} hab => ?_, fun {a b} hab => ?_⟩
  · rw [List.nodup_middle]
    exact List.nodup_cons.2 ⟨hx, h.nodup⟩
  · rw [hright] at hab
    split at hab
    next hax =>
      subst hax
      exact (before_insert_right hx).2 (hR b hab)
    next =>
      split at hab
      next hal =>
        obtain rfl := Option.some.inj hab
        exact (before_insert_left hx).2 (hL a hal)
      next => exact (h.forward hab).insert
  · rw [hleft] at hab
    rw [hright]
    split at hab
    next hRa =>
      obtain rfl := Option.some.inj hab
      rw [if_pos rfl, hRa]
    next hRa =>
      split at hab
      next hax =>
        subst hax
        have hb : b ≠ a := fun hba => hx (hba ▸ List.mem_append_left _ (hL b hab))
        rw [if_neg hb, if_pos hab]
      next hax =>
        have hr := h.back hab
        rw [if_neg (hne hr).1, if_neg, hr]
        intro hLb
        exact hRa ((hLR b hLb).trans hr)

end Weave

end Links
