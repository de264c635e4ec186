import YCollab.Crdt.Again
import YCollab.Crdt.Wire

/-!
# State vectors as versions

The document endpoint and the version store compare encoded state vectors, and take documents with
the same bytes for the same document. A state vector says which clocks have been received and
nothing of what is deleted, so a deletion goes unnoticed (`deletion_unnoticed`). As long as nothing
live is deleted, equal bytes do mean equal content (`Doc.sameContent_of_encodeStateVector`).
-/

namespace YCollab.Crdt

namespace Doc

variable {d : Doc}

theorem Regular.receive_state_mono (h : d.Regular) (b : Bytes) (c : ℕ) :
    d.state c ≤ (d.receive b).state c := by
  unfold Doc.receive applyUpdate
  cases decodeUpdate b with
  | ok u => exact (h.state_mono u c).2
  | error x => exact le_rfl

theorem Regular.foldl_state_mono (h : d.Regular) (bs : List Bytes) (c : ℕ) :
    d.state c ≤ (bs.foldl Doc.receive d).state c := by
  induction bs generalizing d with
  | nil => exact le_rfl
  | cons b bs ih => exact (h.receive_state_mono b c).trans (ih (h.receive b))

/-- Updates that bring no clock and name nothing live for deletion do not show. -/
theorem Regular.still_foldl (h : d.Regular) (he : d.UnitEntries) (bs : List Bytes)
    (hs : ∀ c, (bs.foldl Doc.receive d).state c = d.state c)
    (hdel : ∀ b ∈ bs, ∀ u, decodeUpdate b = .ok u → d.NothingLive u.deletes.Names) :
    Alike d (bs.foldl Doc.receive d) := by
  induction bs generalizing d with
  | nil =>
    obtain ⟨ord, hw⟩ := h.woven
    exact .refl hw he
  | cons b bs ih =>
    rw [List.foldl_cons] at hs ⊢
    have hb := h.receive b
    -- no clock is new after the first of them either
    have hs₁ : ∀ c, (d.receive b).state c = d.state c := fun c =>
      le_antisymm ((hb.foldl_state_mono bs c).trans (hs c).le) (h.receive_state_mono b c)
    have halike : Alike d (d.receive b) := by
      cases hu : decodeUpdate b with
      | ok u =>
        rw [receive_ok hu] at hs₁ ⊢
        exact h.still he hs₁ (hdel b (by simp) u hu)
      | error x =>
        obtain ⟨ord, hw⟩ := h.woven
        simpa [Doc.receive, applyUpdate, hu] using Alike.refl hw he
    refine halike.trans (ih hb halike.entries (fun c => (hs c).trans (hs₁ c).symm) ?_)
    intro b' hb' u hu x hx hhas
    refine (halike.gone x).2 (hdel b' (List.mem_cons_of_mem _ hb') u hu x hx ?_)
    unfold Has at hhas ⊢
    rwa [hs₁] at hhas

/-- **Equal state vectors, equal content, as long as nothing live is deleted.**  A document that
received any updates, with map entries of single units, receives further updates of which none names
a live unit of it for deletion. If its encoded state vector is the same afterwards, so are the live
units of every sequence and the value of every key of every map. -/
theorem sameContent_of_encodeStateVector (bs bs' : List Bytes)
    (hentries : (replay bs).UnitEntries)
    (hdel : ∀ b ∈ bs', ∀ u, decodeUpdate b = .ok u → (replay bs).NothingLive u.deletes.Names)
    {sv : Bytes} (h : (replay bs).encodeStateVector = .ok sv)
    (h' : (replay (bs ++ bs')).encodeStateVector = .ok sv) :
    (∀ p, (replay (bs ++ bs')).liveUnits p = (replay bs).liveUnits p) ∧
      ∀ p key, (replay (bs ++ bs')).mapGet p key = (replay bs).mapGet p key := by
  have hsv : (replay (bs ++ bs')).stateVector = (replay bs).stateVector :=
    encodeStateVector_inj h' h
  have hs := state_of_stateVector (replay_regular bs).gapless (replay_regular (bs ++ bs')).gapless hsv
  have hfold : replay (bs ++ bs') = bs'.foldl Doc.receive (replay bs) := List.foldl_append
  rw [hfold] at hs ⊢
  have halike := (replay_regular bs).still_foldl hentries bs' hs hdel
  exact ⟨halike.live, halike.get⟩

end Doc

namespace Sample

/-- Two letters of client 1, the first of them deleted. -/
def halfGone : Bytes := [1, 1, 1, 0, 4, 1, 1, 116, 2, 97, 98, 1, 1, 1, 0, 1]

/-- Two letters of client 1 in the type `t`. -/
def twoLetters : Bytes := [1, 1, 1, 0, 4, 1, 1, 116, 2, 97, 98, 0]

/-- Delete the first letter of client 1. -/
def deleteFirst : Bytes := [0, 1, 1, 1, 0, 1]

end Sample

theorem sameContent_halfGone :
    (∀ p, (Doc.replay ([Sample.halfGone] ++ [Sample.deleteFirst])).liveUnits p =
      (Doc.replay [Sample.halfGone]).liveUnits p) ∧
    ∀ p key, (Doc.replay ([Sample.halfGone] ++ [Sample.deleteFirst])).mapGet p key =
      (Doc.replay [Sample.halfGone]).mapGet p key := by
  refine Doc.sameContent_of_encodeStateVector [Sample.halfGone] [Sample.deleteFirst]
    (Doc.unitEntries_of_store (by decide)) ?_ rfl rfl
  intro b hb u hu
  obtain rfl := List.mem_singleton.1 hb
  cases hu
  exact fun x hx _ => ((Doc.replay [Sample.halfGone]).deleteSet_spec.2 x).1 hx

/-- Deleting a letter leaves the bytes of the state vector as they are, and changes the text. -/
theorem deletion_unnoticed :
    (Doc.replay [Sample.twoLetters]).encodeStateVector = .ok [1, 1, 2] ∧
    (Doc.replay ([Sample.twoLetters] ++ [Sample.deleteFirst])).encodeStateVector = .ok [1, 1, 2] ∧
    (Doc.replay ([Sample.twoLetters] ++ [Sample.deleteFirst])).liveUnits (.root [116]) ≠
      (Doc.replay [Sample.twoLetters]).liveUnits (.root [116]) := by
  refine ⟨rfl, rfl, fun h => ?_⟩
  have hlen := congrArg (Option.map List.length) h
  cases hlen

end YCollab.Crdt
