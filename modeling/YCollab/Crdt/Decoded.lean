import YCollab.Crdt.Update

/-!
# What decoding guarantees

A block of a decoded update is a run of consecutive structs of its client (`Contig`), and an item
names its parent exactly when it has no neighbour (`Item.Wire`).
-/

namespace YCollab.Crdt

open Lib0

/-- Consecutive structs of one client from a clock on. -/
def Contig (c : ℕ) : ℕ → List Struct → Prop
  | _, [] => True
  | k, st :: l => st.id = ⟨c, k⟩ ∧ Contig c (k + st.len) l

/-- The block is a run of consecutive structs. -/
def IsContig (c : ℕ) (l : List Struct) : Prop := ∃ k, Contig c k l

/-- An item as it comes from the wire: nothing is resolved, and the parent is named when there is
no neighbour to tell it. -/
structure Item.Wire (it : Item) : Prop where
  fresh : it.parent = none
  alone : it.wireParent ≠ none ↔ it.origin = none ∧ it.rightOrigin = none

variable {c k : ℕ} {l l' : List Struct}

theorem IsContig.suffix (hs : l' <:+ l) (h : IsContig c l) : IsContig c l' := by
  obtain ⟨A, rfl⟩ := hs
  obtain ⟨k, h⟩ := h
  induction A generalizing k with
  | nil => exact ⟨k, h⟩
  | cons st A ih => exact ih _ h.2

theorem Contig.mem {st st' : Struct} (h : Contig c k (st :: l)) (hm : st' ∈ st :: l) :
    st'.id.client = c ∧ k ≤ st'.id.clock ∧ (st' = st ∨ k + st.len ≤ st'.id.clock) := by
  induction l generalizing k st with
  | nil =>
    obtain rfl := List.mem_singleton.1 hm
    simp [h.1]
  | cons st₁ l ih =>
    rcases List.mem_cons.1 hm with rfl | hm
    · simp [h.1]
    · obtain ⟨hc, hk, -⟩ := ih h.2 hm
      exact ⟨hc, by omega, .inr hk⟩

theorem Contig.client_eq {st : Struct} (h : Contig c k l) (hm : st ∈ l) : st.id.client = c := by
  cases l with
  | nil => cases hm
  | cons st₀ l => exact (h.mem hm).1

/-! ### The readers -/

theorem readParent_yields (absent hasParentSub : Bool) :
    Yields (readParent absent hasParentSub) fun p => p.1 ≠ none ↔ absent = true := by
  cases absent with
  | false => exact .pure (by simp)
  | true =>
    refine (Yields.any readParentInfo).bind fun parent _ => .ite (fun _ => ?_) fun _ => .pure (by simp)
    exact (Yields.any readVarString).bind fun _ _ => .pure (by simp)

theorem readItem_yields (id : ID) (info : ℕ) :
    Yields (readItem id info) fun st => st.id = id ∧ ∀ it, st = .item it → it.Wire := by
  refine (Yields.any _).bind fun origin _ => (Yields.any _).bind fun rightOrigin _ =>
    (readParent_yields _ _).bind fun p hp => (Yields.any _).bind fun content _ => .pure ⟨rfl, ?_⟩
  rintro it ⟨⟩
  exact ⟨rfl, by simpa using hp⟩

theorem readStruct_yields (client clock : ℕ) :
    Yields (readStruct client clock) fun st =>
      st.id = ⟨client, clock⟩ ∧ ∀ it, st = .item it → it.Wire := by
  refine (Yields.any _).bind fun info _ => .ite (fun _ => .ite (fun _ => .fail _) fun _ => ?_) fun _ =>
    .ite (fun _ => .ite (fun _ => .fail _) fun _ => ?_) fun _ => readItem_yields _ _
  all_goals exact (Yields.any _).bind fun n _ => .pure ⟨rfl, fun _ he => by cases he⟩

theorem readStructs_yields (client n clock : ℕ) :
    Yields (readStructs client n clock) fun l =>
      Contig client clock l ∧ ∀ it, .item it ∈ l → it.Wire := by
  induction n generalizing clock with
  | zero => exact .pure ⟨trivial, by simp⟩
  | succ n ih =>
    refine (readStruct_yields client clock).bind fun st hst => (ih _).bind fun l hl => .pure ?_
    refine ⟨⟨hst.1, hl.1⟩, fun it hit => ?_⟩
    rcases List.mem_cons.1 hit with heq | hit
    · exact hst.2 it heq.symm
    · exact hl.2 it hit

theorem readClientBlock_yields :
    Yields readClientBlock fun blk => Contig blk.client blk.startClock blk.structs ∧
      ∀ it, .item it ∈ blk.structs → it.Wire :=
  (Yields.any _).bind fun n _ => (Yields.any _).bind fun _ _ => (Yields.any _).bind fun c _ =>
    (Yields.any _).bind fun k _ => (readStructs_yields c n k).bind fun _ hl => .pure hl

theorem decodeUpdate_spec {b : Bytes} {u : Update} (h : decodeUpdate b = .ok u) :
    ∀ blk ∈ u.clients, Contig blk.client blk.startClock blk.structs ∧
      ∀ it, .item it ∈ blk.structs → it.Wire := by
  have hy : Yields readUpdate fun u => ∀ blk ∈ u.clients,
      Contig blk.client blk.startClock blk.structs ∧ ∀ it, .item it ∈ blk.structs → it.Wire :=
    (Yields.any _).bind fun n _ => (Yields.any _).bind fun _ _ =>
      (readClientBlock_yields.times n).bind fun _ hb => (Yields.any _).bind fun _ _ => .pure hb
  unfold decodeUpdate decodeAll at h
  split at h
  next a heq =>
    cases h
    exact hy _ _ _ heq
  next => cases h
  next => cases h

end YCollab.Crdt
