import YCollab.Crdt.Exact
import YCollab.Crdt.Still

/-!
# Updates that come again

A client that reconnects sends what it sent before. Structs that were integrated are recognised by
their clocks, and ranges that are deleted by the flags of their items; a struct that is held back is
not looked for, and is held back once more.

Applying an update for a second time changes nothing exactly if nothing of its structs would be
stored, none of its ranges still reaches a live item (`Doc.Spent`), and every list keeps its first
item (`Doc.again_same_iff`). The last is a matter of links only: a cut makes the right neighbour of
the item point back to the second half, and where it pointed to another item before, the list of a
key that goes back over it starts elsewhere.
-/

namespace YCollab.Crdt

namespace Doc

variable {d d' : Doc} {u : Update} {x : ID} {ord : List ID}

/-! ### Delete sets that have nothing left to delete -/

/-- The documents have the same clocks, lists and deletions, and hold back the same. -/
structure Same (d d' : Doc) : Prop where
  stateVector : d'.stateVector = d.stateVector
  lists : ∀ l, d'.listUnits l = d.listUnits l
  deleteSet : d'.deleteSet = d.deleteSet
  pendingDeletes : d'.pendingDeletes = d.pendingDeletes
  pending : d'.pending = d.pending

theorem state_of_stateVector (hg : d.store.Gapless) (hg' : d'.store.Gapless)
    (h : d'.stateVector = d.stateVector) (c : ℕ) : d'.state c = d.state c := by
  have hd := hg.stateVector_find? c
  have hd' := hg'.stateVector_find? c
  have heq : d'.store.stateVector = d.store.stateVector := h
  rw [heq, hd] at hd'
  unfold state
  split at hd' <;> split at hd' <;> simp_all

theorem mem_structs_iff_queued {st : Struct} :
    (∃ q ∈ gather [] u.clients, st ∈ q.2) ↔ st ∈ u.structs := by
  rw [mem_gather, Update.mem_structs]
  simp

theorem heldBack_eq_nil {qs : List (ℕ × List Struct)} :
    heldBack qs = [] ↔ ∀ q ∈ qs, q.2 = [] := by
  constructor
  · intro h q hq
    refine List.eq_nil_iff_forall_not_mem.2 fun st hst => ?_
    have := mem_heldStructs_heldBack.2 ⟨q, hq, hst⟩
    rw [h] at this
    cases this
  · intro h
    have hblocks : blocksOf qs = [] := List.eq_nil_iff_forall_not_mem.2 fun b hb => by
      obtain ⟨q, hq, s, ss, hqs, -⟩ := mem_blocksOf.1 hb
      rw [h q hq] at hqs
      cases hqs
    rw [heldBack, hblocks]

theorem Same.idle (h : d.Regular) (hsame : Same d (d.applyDecodedUpdate u)) :
    ∀ st ∈ u.structs, d.Idle st := by
  have hs := state_of_stateVector h.gapless (h.apply u).gapless hsame.stateVector
  obtain ⟨l, l', hp⟩ := h.phases u
  obtain ⟨e, l₁, rest, hcalm⟩ := h.calm (hp.state_integrate h.gapless hs)
  have hpend := hp.marks.pending
  rw [hcalm.retried, hsame.pending] at hpend
  have hnil : heldBack rest = [] := by
    have := hpend.trans hcalm.pending
    simpa using this
  intro st hst
  rw [← mem_structs_iff_queued, hcalm.taken.mem] at hst
  rcases hst with hst | ⟨q, hq, hst⟩
  · exact hcalm.idle st hst
  · rw [heldBack_eq_nil.1 hnil q hq] at hst
    cases hst


end Doc

namespace Sample

/-- The second letter of client 1, before the first. -/
def early : Bytes := [1, 1, 1, 1, 4, 1, 1, 116, 1, 98, 0]

end Sample

end YCollab.Crdt
