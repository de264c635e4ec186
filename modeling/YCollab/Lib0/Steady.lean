import YCollab.Lib0.Any

/-!
# Readers that do not look ahead

A reader is steady if more input behind what it reads changes nothing: it returns the same value
and leaves the same rest, with the additional input at its end. Several readers compare a count with
the number of bytes that are left, which more input can only make larger, so every reader of the
library is steady.
-/

namespace YCollab.Lib0

variable {α β : Type} {r r' : Read α} {f : α → Read β}

/-- More input does not change what `r` reads. -/
def Steady (r : Read α) : Prop :=
  ∀ b a rest more, r b = .ok (a, rest) → r (b ++ more) = .ok (a, rest ++ more)

namespace Steady

theorem pure (a : α) : Steady (Pure.pure a) := by
  rintro b _ _ more ⟨⟩
  rfl

theorem fail (x : Err) : Steady (Read.fail x : Read α) := nofun

theorem bind (h : Steady r) (hf : ∀ a, Steady (f a)) : Steady (r >>= f) := by
  intro b c rest more hr
  rw [Read.bind_run] at hr
  split at hr
  next a mid heq =>
    rw [Read.bind_run_ok (h b a mid more heq)]
    exact hf a mid c rest more hr
  next => cases hr

theorem map (h : Steady r) (g : α → β) : Steady (r >>= fun a => Pure.pure (g a)) :=
  h.bind fun a => .pure (g a)

theorem ite {c : Prop} [Decidable c] (h : Steady r) (h' : Steady r') :
    Steady (if c then r else r') := by
  split
  · exact h
  · exact h'

theorem times (h : Steady r) (n : ℕ) : Steady (r.times n) := by
  induction n with
  | zero => exact .pure []
  | succ n ih => exact h.bind fun a => ih.map (a :: ·)

theorem checkRemaining (n : ℕ) : Steady (Read.checkRemaining n) := by
  intro b a rest more h
  unfold Read.checkRemaining at h ⊢
  split at h
  · cases h
  next hn =>
    cases h
    exact if_neg (by rw [List.length_append]; omega)

theorem counted {k : Read ℕ} {g : List α → β} (hk : Steady k) (h : Steady r) :
    Steady (do
      let n ← k
      Read.checkRemaining n
      let l ← r.times n
      Pure.pure (g l)) :=
  hk.bind fun n => (checkRemaining n).bind fun _ => (h.times n).map g

end Steady

/-! ### The readers of the library -/

theorem readUint8_steady : Steady readUint8 := by
  intro b a rest more h
  cases b with
  | nil => cases h
  | cons x b =>
    cases h
    rfl

theorem readBytes_steady (n : ℕ) : Steady (readBytes n) := by
  intro b a rest more h
  unfold readBytes at h ⊢
  split at h
  · cases h
  next hn =>
    cases h
    have hle : n ≤ b.length := by omega
    rw [if_neg (by rw [List.length_append]; omega), List.take_append_of_le_length hle,
      List.drop_append_of_le_length hle]

theorem readVarUintLoop_steady {b rest : Bytes} {num mult v : ℕ} (more : Bytes)
    (h : readVarUintLoop b num mult = .ok (v, rest)) :
    readVarUintLoop (b ++ more) num mult = .ok (v, rest ++ more) := by
  induction b generalizing num mult with
  | nil => cases h
  | cons x b ih =>
    simp only [List.cons_append, readVarUintLoop] at h ⊢
    split at h
    next hx =>
      cases h
      rw [if_pos hx]
    next hx =>
      rw [if_neg hx]
      split at h
      · cases h
      next hn =>
        rw [if_neg hn]
        exact ih h

theorem readVarUint_steady : Steady readVarUint := fun _ _ _ more h => readVarUintLoop_steady more h

theorem readVarIntLoop_steady {sign : ℤ} {b rest : Bytes} {num mult v : ℤ} (more : Bytes)
    (h : readVarIntLoop sign b num mult = .ok (v, rest)) :
    readVarIntLoop sign (b ++ more) num mult = .ok (v, rest ++ more) := by
  induction b generalizing num mult with
  | nil => cases h
  | cons x b ih =>
    simp only [List.cons_append, readVarIntLoop] at h ⊢
    split at h
    next hx =>
      cases h
      rw [if_pos hx]
    next hx =>
      rw [if_neg hx]
      split at h
      · cases h
      next hn =>
        rw [if_neg hn]
        exact ih h

theorem readVarInt_steady : Steady readVarInt := by
  intro b a rest more h
  cases b with
  | nil => cases h
  | cons x b =>
    simp only [List.cons_append, readVarInt] at h ⊢
    split at h
    next hx =>
      cases h
      rw [if_pos hx]
    next hx =>
      rw [if_neg hx]
      exact readVarIntLoop_steady more h

theorem readVarUint8Array_steady : Steady readVarUint8Array :=
  readVarUint_steady.bind fun n => (Steady.checkRemaining n).bind fun _ => readBytes_steady n

theorem readVarString_steady : Steady readVarString := readVarUint8Array_steady

theorem readAnyAt_steady (k : ℕ) : Steady (readAnyAt k) := by
  induction k with
  | zero => exact .fail _
  | succ k ih =>
    have hfield : Steady (do
        let key ← readVarString
        let val ← readAnyAt k
        Pure.pure (key, val)) := readVarString_steady.bind fun key => ih.map (key, ·)
    -- one reader for each tag, in the order of the source
    refine readUint8_steady.bind fun tag => ?_
    refine .ite (.pure _) <| .ite (.pure _) <| .ite (readVarInt_steady.map _) <|
      .ite ((readBytes_steady 4).map _) <| .ite ((readBytes_steady 8).map _) <|
      .ite ((readBytes_steady 8).map _) <| .ite (.pure _) <| .ite (.pure _) <|
      .ite (readVarString_steady.map _) <| .ite (.counted readVarUint_steady hfield) <|
      .ite (.counted readVarUint_steady ih) <| .ite (readVarUint8Array_steady.map _) (.fail _)

theorem readAny_steady : Steady readAny := readAnyAt_steady _

end YCollab.Lib0
