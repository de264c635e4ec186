import Mathlib.Data.List.Induction

/-!
# Machines

A machine is given by a partial step function: `step s a` is the state after the action `a`, or
nothing if `a` cannot happen in `s`. `run` follows a list of actions, `Along P` says that each of
them is permitted by `P` in the state it happens in.

`invariant` is the rule for properties of every state that permitted actions lead to, `history`
the one for properties of a state and of the actions behind it, and `work_le` bounds how many
actions of some kind there can be. `set_eq_some` and `unset_eq_some` say what is in a table of
processes after one of them went on or ended.
-/

namespace YCollab.Machine

variable {σ α : Type} (step : σ → α → Option σ)

/-- The state after a list of actions, if they can happen one after the other. -/
def run (s : σ) (l : List α) : Option σ := l.foldlM step s

/-- Every action is permitted in the state it happens in. -/
def Along (P : σ → α → Prop) : σ → List α → Prop
  | _, [] => True
  | s, a :: l => P s a ∧ ∀ s', step s a = some s' → Along P s' l

variable {step} {s s' : σ} {a : α} {l : List α}

@[simp] theorem run_nil : run step s [] = some s := rfl

theorem run_cons : run step s (a :: l) = (step s a).bind (run step · l) := rfl

theorem run_cons_eq_some :
    run step s (a :: l) = some s' ↔ ∃ s₁, step s a = some s₁ ∧ run step s₁ l = some s' := by
  rw [run_cons, Option.bind_eq_some_iff]

variable (step) in
theorem run_append (s : σ) (l l' : List α) :
    run step s (l ++ l') = (run step s l).bind (run step · l') := List.foldlM_append

theorem Along.of_forall {P : σ → α → Prop} (h : ∀ a ∈ l, ∀ s, P s a) (s : σ) :
    Along step P s l := by
  induction l generalizing s with
  | nil => exact trivial
  | cons a l ih => exact ⟨h a (by simp) s, fun s' _ => ih (fun b hb => h b (by simp [hb])) s'⟩

/-- Whether actions are permitted can be decided by following them. -/
instance Along.decidable {P : σ → α → Prop} [∀ s a, Decidable (P s a)] :
    ∀ s l, Decidable (Along step P s l)
  | _, [] => .isTrue trivial
  | s, a :: l =>
    match hstep : step s a with
    | none => decidable_of_iff (P s a)
        ⟨fun ha => ⟨ha, fun _ hs => nomatch hstep.symm.trans hs⟩, And.left⟩
    | some s' =>
      have : Decidable (Along step P s' l) := Along.decidable s' l
      decidable_of_iff (P s a ∧ Along step P s' l)
        ⟨fun h => ⟨h.1, fun _ hs => Option.some.inj (hstep.symm.trans hs) ▸ h.2⟩,
          fun h => ⟨h.1, h.2 s' hstep⟩⟩

theorem Along.cons {P : σ → α → Prop} (ha : P s a) (hs : step s a = some s')
    (hl : Along step P s' l) : Along step P s (a :: l) :=
  ⟨ha, fun _ h => Option.some.inj (hs.symm.trans h) ▸ hl⟩

theorem Along.append {P : σ → α → Prop} {l' : List α} (hl : Along step P s l)
    (hl' : ∀ s', run step s l = some s' → Along step P s' l') : Along step P s (l ++ l') := by
  induction l generalizing s with
  | nil => exact hl' s rfl
  | cons a l ih =>
    refine ⟨hl.1, fun s₁ ha => ih (hl.2 s₁ ha) fun s' hrun => hl' s' ?_⟩
    exact run_cons_eq_some.2 ⟨s₁, ha, hrun⟩

theorem Along.split {P : σ → α → Prop} {l' : List α} (h : Along step P s (l ++ l')) :
    Along step P s l ∧ ∀ s', run step s l = some s' → Along step P s' l' := by
  induction l generalizing s with
  | nil =>
    refine ⟨trivial, fun s' hrun => ?_⟩
    cases hrun
    exact h
  | cons a l ih =>
    refine ⟨⟨h.1, fun s₁ ha => (ih (h.2 s₁ ha)).1⟩, fun s' hrun => ?_⟩
    obtain ⟨s₁, ha, hrun⟩ := run_cons_eq_some.1 hrun
    exact (ih (h.2 s₁ ha)).2 s' hrun

theorem invariant {I : σ → Prop} {P : σ → α → Prop}
    (hstep : ∀ {s a s'}, I s → P s a → step s a = some s' → I s') (h : I s)
    (hl : Along step P s l) (hrun : run step s l = some s') : I s' := by
  induction l generalizing s with
  | nil =>
    cases hrun
    exact h
  | cons a l ih =>
    obtain ⟨s₁, ha, hrun⟩ := run_cons_eq_some.1 hrun
    exact ih (hstep h hl.1 ha) (hl.2 s₁ ha) hrun

theorem history {I : List α → σ → Prop} (h : I [] s)
    (hstep : ∀ {l s₁ a s₂}, run step s l = some s₁ → I l s₁ → step s₁ a = some s₂ →
      I (l ++ [a]) s₂)
    (hrun : run step s l = some s') : I l s' := by
  induction l using List.reverseRecOn generalizing s' with
  | nil =>
    cases hrun
    exact h
  | append_singleton l a ih =>
    rw [run_append, Option.bind_eq_some_iff] at hrun
    obtain ⟨s₁, hl, ha⟩ := hrun
    obtain ⟨s₂, ha, hnil⟩ := run_cons_eq_some.1 ha
    cases hnil
    exact hstep hl (ih hl) ha

/-- If every action that is `work` uses up some of the measure, and any other adds at most `k` to
it, the others bound how much work there is. -/
theorem work_le {μ : σ → ℕ} {work : α → Bool} {k : ℕ}
    (hstep : ∀ s a s', step s a = some s' →
      if work a then μ s' + 1 ≤ μ s else μ s' ≤ μ s + k)
    (hrun : run step s l = some s') :
    l.countP work + μ s' ≤ μ s + k * l.countP (! work ·) := by
  induction l generalizing s with
  | nil =>
    cases hrun
    simp
  | cons a l ih =>
    obtain ⟨s₁, ha, hrun⟩ := run_cons_eq_some.1 hrun
    have hone := hstep s a s₁ ha
    have hrest := ih hrun
    rw [List.countP_cons, List.countP_cons]
    cases hw : work a
    · simp only [hw, Bool.false_eq_true, if_false, Bool.not_false, if_true] at hone ⊢
      rw [Nat.mul_add]
      omega
    · simp only [hw, if_true, Bool.not_true, Bool.false_eq_true, if_false, Nat.add_zero] at hone ⊢
      omega

variable {ι : Type} [DecidableEq ι] {t : ι → Option α} {i j : ι} {b : α}

theorem set_eq_some :
    Function.update t i (some a) j = some b ↔ j = i ∧ b = a ∨ j ≠ i ∧ t j = some b := by
  by_cases hj : j = i
  · subst hj
    simp [eq_comm]
  · simp [hj]

theorem unset_eq_some : Function.update t i none j = some b ↔ j ≠ i ∧ t j = some b := by
  by_cases hj : j = i
  · subst hj
    simp
  · simp [hj]

end YCollab.Machine
