import YCollab.Crdt.Update
import YCollab.Lib0.Steady

/-!
# The update format is prefix-free

No accepted update is a proper beginning of another one (`decodeUpdate_prefix_free`): the readers of
structs, contents and delete sets are steady, so on a longer input the decoder makes the same
decisions up to the end of the shorter one, and there it finds trailing bytes. A record that was cut
off, or that another one was appended to, is never taken for an update.
-/

namespace YCollab.Crdt

open Lib0

/-! ### The readers of an update -/

theorem readSafeVarUint_steady : Steady readSafeVarUint :=
  readVarUint_steady.bind fun n => .ite (.fail _) (.pure n)

theorem readLen_steady : Steady readLen := readVarUint_steady.bind fun n => .ite (.fail _) (.pure n)

theorem readAbstractType_steady : Steady readAbstractType := by
  refine readVarUint_steady.bind fun n => ?_
  split
  · exact .fail _
  · exact .ite (readVarString_steady.map _) (.pure _)

theorem readContent_steady (ref : ℕ) : Steady (readContent ref) := by
  unfold readContent
  split
  · exact readLen_steady.map _
  · exact .counted readLen_steady readVarString_steady
  · exact readVarUint8Array_steady.map _
  · exact readVarString_steady.map _
  · exact readVarString_steady.map _
  · exact readVarString_steady.bind fun key => readVarString_steady.map _
  · exact readAbstractType_steady
  · exact .counted readLen_steady readAny_steady
  · exact readVarString_steady.bind fun guid => readAny_steady.map _
  · exact .fail _

theorem readID_steady : Steady readID :=
  readSafeVarUint_steady.bind fun _ => readSafeVarUint_steady.map _

theorem readOptionID_steady (present : Bool) : Steady (readOptionID present) :=
  .ite (readID_steady.map _) (.pure _)

theorem readParentInfo_steady : Steady readParentInfo :=
  readVarUint_steady.bind fun _ =>
    .ite (readVarString_steady.map _) (.ite (readID_steady.map _) (.fail _))

theorem readParent_steady (absent hasParentSub : Bool) : Steady (readParent absent hasParentSub) :=
  .ite (readParentInfo_steady.bind fun _ => .ite (readVarString_steady.map _) (.pure _)) (.pure _)

theorem readItem_steady (id : ID) (info : ℕ) : Steady (readItem id info) := by
  refine (readOptionID_steady _).bind fun origin => ?_
  refine (readOptionID_steady _).bind fun rightOrigin => ?_
  refine (readParent_steady _ _).bind fun parent => ?_
  exact (readContent_steady _).map _

theorem readStruct_steady (client clock : ℕ) : Steady (readStruct client clock) := by
  refine readUint8_steady.bind fun info => .ite ?_ (.ite ?_ (readItem_steady _ _))
  · exact .ite (.fail _) (readLen_steady.map _)
  · exact .ite (.fail _) (readLen_steady.map _)

theorem readStructs_steady (client n clock : ℕ) : Steady (readStructs client n clock) := by
  induction n generalizing clock with
  | zero => exact .pure []
  | succ n ih =>
    refine (readStruct_steady client clock).bind fun s => ?_
    exact (ih (clock + s.len)).map _

theorem readClientBlock_steady : Steady readClientBlock := by
  refine readVarUint_steady.bind fun n => (Steady.checkRemaining n).bind fun _ => ?_
  refine readSafeVarUint_steady.bind fun client => readSafeVarUint_steady.bind fun start => ?_
  exact (readStructs_steady client n start).map _

theorem readDeleteRange_steady : Steady readDeleteRange :=
  readSafeVarUint_steady.bind fun _ => readLen_steady.map _

theorem readDeleteClient_steady : Steady readDeleteClient :=
  readSafeVarUint_steady.bind fun _ => .counted readVarUint_steady readDeleteRange_steady

theorem readDeleteSet_steady : Steady readDeleteSet :=
  .counted readVarUint_steady readDeleteClient_steady

theorem readUpdate_steady : Steady readUpdate := by
  refine readVarUint_steady.bind fun n => (Steady.checkRemaining n).bind fun _ => ?_
  refine (readClientBlock_steady.times n).bind fun clients => ?_
  exact readDeleteSet_steady.map _

/-! ### Whole inputs -/

theorem decodeAll_append {α : Type} {r : Read α} (hr : Steady r) {b x : Bytes} {a : α}
    (h : decodeAll r b = .ok a) (hx : x ≠ []) : decodeAll r (b ++ x) = .error .corruptUpdate := by
  have hread : r b = .ok (a, []) := by
    unfold decodeAll at h
    split at h
    next heq =>
      cases h
      exact heq
    · cases h
    · cases h
  obtain ⟨y, ys, rfl⟩ := List.exists_cons_of_ne_nil hx
  simp [decodeAll, hr b a [] (y :: ys) hread]

/-- **The update format is prefix-free.**  If an input is accepted, then no longer input that begins
with it is, and no proper beginning of it. -/
theorem decodeUpdate_prefix_free {b : Bytes} {u : Update} (h : decodeUpdate b = .ok u) :
    (∀ x, x ≠ [] → ∃ err, decodeUpdate (b ++ x) = .error err) ∧
      ∀ p, p <+: b → p ≠ b → ∃ err, decodeUpdate p = .error err := by
  refine ⟨fun x hx => ⟨_, decodeAll_append readUpdate_steady h hx⟩, fun p hp hne => ?_⟩
  obtain ⟨x, rfl⟩ := hp
  cases hdec : decodeUpdate p with
  | error err => exact ⟨err, rfl⟩
  | ok v =>
    have hx : x ≠ [] := fun hx => hne (by rw [hx, List.append_nil])
    have hrej : decodeUpdate (p ++ x) = .error .corruptUpdate :=
      decodeAll_append readUpdate_steady hdec hx
    rw [hrej] at h
    cases h

/-- The letters `ab` of client 1: cut off, or sent twice, they are refused. -/
theorem decodeUpdate_prefix_free_letters :
    let letters : Bytes := [1, 1, 1, 0, 4, 1, 1, 116, 2, 97, 98, 0]
    (∃ err, decodeUpdate (letters ++ letters) = .error err) ∧
      ∃ err, decodeUpdate (letters.take 7) = .error err := by
  have h := decodeUpdate_prefix_free (b := [1, 1, 1, 0, 4, 1, 1, 116, 2, 97, 98, 0]) rfl
  exact ⟨h.1 _ (by decide), h.2 _ (List.take_prefix ..) (by decide)⟩

end YCollab.Crdt
