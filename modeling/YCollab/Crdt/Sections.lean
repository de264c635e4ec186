import YCollab.Crdt.Update

/-!
# The sections of a delete set

On the wire a delete set is a sequence of sections, each a client and its ranges. `readDeleteSet`
stores the ranges of each section under its client, in place of what is there: of several sections
of one client only the last is kept. So nothing of an update is lost exactly if the last section of
each client has all of its ranges (`decode_keeps_ranges_iff`).
-/

namespace YCollab.Crdt

open Lib0

/-- The sections of a delete set, in the order they are written. -/
def readSections : Read (List (ℕ × List DeleteRange)) := do
  let numClients ← readVarUint
  Read.checkRemaining numClients
  Read.times readDeleteClient numClients

/-- The sections of the delete set of an update, behind its blocks. -/
def readUpdateSections : Read (List (ℕ × List DeleteRange)) := do
  let numClients ← readVarUint
  Read.checkRemaining numClients
  let _ ← Read.times readClientBlock numClients
  readSections

/-- The sections that are written in an update. -/
def deleteSections (b : Bytes) : Except Err (List (ℕ × List DeleteRange)) :=
  decodeAll readUpdateSections b

/-- The last section of each client has all ranges of its sections. -/
def LastHasAll (sections : List (ℕ × List DeleteRange)) : Prop :=
  ∀ p ∈ sections, ∀ q, (sections.filter fun q => q.1 = p.1).getLast? = some q → ∀ r ∈ p.2, r ∈ q.2

variable {b rest : Bytes} {u : Update} {ds : DeleteSet} {sections : List (ℕ × List DeleteRange)}

theorem exists_sections_of_readDeleteSet (h : readDeleteSet b = .ok (ds, rest)) :
    ∃ sections, readSections b = .ok (sections, rest) ∧ ds = SortedMap.ofList sections := by
  obtain ⟨n, b₁, hn, h⟩ := Read.exists_of_bind h
  obtain ⟨_, b₂, hc, h⟩ := Read.exists_of_bind h
  obtain ⟨sections, b₃, hs, h⟩ := Read.exists_of_bind h
  obtain ⟨rfl, rfl⟩ := Prod.mk.inj (Except.ok.inj h)
  refine ⟨sections, ?_, rfl⟩
  rw [readSections, Read.bind_run_ok hn, Read.bind_run_ok hc, hs]

theorem exists_sections (h : decodeUpdate b = .ok u) :
    ∃ sections, deleteSections b = .ok sections ∧ u.deletes = SortedMap.ofList sections := by
  have hread : readUpdate b = .ok (u, []) := by
    unfold decodeUpdate decodeAll at h
    split at h
    next hread => exact Except.ok.inj h ▸ hread
    next => cases h
    next => cases h
  obtain ⟨n, b₁, hn, hread⟩ := Read.exists_of_bind hread
  obtain ⟨_, b₂, hc, hread⟩ := Read.exists_of_bind hread
  obtain ⟨blocks, b₃, hb, hread⟩ := Read.exists_of_bind hread
  obtain ⟨ds, b₄, hd, hread⟩ := Read.exists_of_bind hread
  obtain ⟨rfl, rfl⟩ := Prod.mk.inj (Except.ok.inj hread)
  obtain ⟨sections, hs, rfl⟩ := exists_sections_of_readDeleteSet hd
  refine ⟨sections, ?_, rfl⟩
  have hrun : readUpdateSections b = .ok (sections, []) := by
    rw [readUpdateSections, Read.bind_run_ok hn, Read.bind_run_ok hc, Read.bind_run_ok hb, hs]
  rw [deleteSections, decodeAll, hrun]

theorem ranges_ofList (sections : List (ℕ × List DeleteRange)) (c : ℕ) :
    DeleteSet.ranges (SortedMap.ofList sections) c =
      (((sections.filter fun q => q.1 = c).getLast?).map Prod.snd).getD [] := by
  rw [DeleteSet.ranges, SortedMap.find?_ofList]

/-- **Decoding loses no deletion exactly if the last section of each client has all of its ranges.**
It is so whenever no client has two sections. -/
theorem decode_keeps_ranges_iff (h : decodeUpdate b = .ok u) :
    ∃ sections, deleteSections b = .ok sections ∧
      ((∀ p ∈ sections, ∀ r ∈ p.2, r ∈ u.deletes.ranges p.1) ↔ LastHasAll sections) ∧
      ((sections.map Prod.fst).Nodup → LastHasAll sections) := by
  obtain ⟨sections, hs, hds⟩ := exists_sections h
  refine ⟨sections, hs, ?_, fun hnd p hp q hq r hr => ?_⟩
  · rw [hds]
    refine forall_congr' fun p => forall_congr' fun hp => ?_
    rw [ranges_ofList]
    cases hq : (sections.filter fun q => q.1 = p.1).getLast? with
    | none =>
      rw [List.getLast?_eq_none_iff, List.filter_eq_nil_iff] at hq
      exact absurd (decide_eq_true rfl) (hq p hp)
    | some q => simp
  · -- the section is the only one of its client
    have hq := List.mem_of_getLast? hq
    rw [List.mem_filter, decide_eq_true_eq] at hq
    obtain rfl := List.inj_on_of_nodup_map hnd hq.1 hp hq.2
    exact hr

/-- Client 1 has two sections, with one of client 2 in between; the second repeats the range of the
first. -/
def repeatedSection : Bytes := [0, 3, 1, 1, 0, 1, 2, 1, 0, 2, 1, 2, 0, 1, 2, 1]

theorem repeated_section_kept : ∃ u sections, decodeUpdate repeatedSection = .ok u ∧
    deleteSections repeatedSection = .ok sections ∧
    sections = [(1, [⟨0, 1⟩]), (2, [⟨0, 2⟩]), (1, [⟨0, 1⟩, ⟨2, 1⟩])] ∧
    ∀ p ∈ sections, ∀ r ∈ p.2, r ∈ u.deletes.ranges p.1 := by
  have hdec : decodeUpdate repeatedSection = .ok ⟨[], SortedMap.ofList
      [(1, [⟨0, 1⟩]), (2, [⟨0, 2⟩]), (1, [⟨0, 1⟩, ⟨2, 1⟩])]⟩ := rfl
  obtain ⟨sections, hs, hiff, -⟩ := decode_keeps_ranges_iff hdec
  have heq : deleteSections repeatedSection =
      .ok [(1, [⟨0, 1⟩]), (2, [⟨0, 2⟩]), (1, [⟨0, 1⟩, ⟨2, 1⟩])] := rfl
  obtain rfl := Except.ok.inj (hs.symm.trans heq)
  exact ⟨_, _, hdec, hs, rfl, hiff.2 (by simp [LastHasAll])⟩

/-- Client 1 has two sections, one for each of its first two units. The first is lost. -/
theorem earlier_section_lost :
    deleteSections [0, 2, 1, 1, 0, 1, 1, 1, 1, 1] = .ok [(1, [⟨0, 1⟩]), (1, [⟨1, 1⟩])] ∧
      ∃ u, decodeUpdate [0, 2, 1, 1, 0, 1, 1, 1, 1, 1] = .ok u ∧
        u.deletes.ranges 1 = [⟨1, 1⟩] :=
  ⟨rfl, _, rfl, rfl⟩

end YCollab.Crdt
