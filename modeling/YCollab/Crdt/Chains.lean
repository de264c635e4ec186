import YCollab.Crdt.Convergence

/-!
# Lists are well linked

A document that received updates of a well-formed history, whichever and in whatever order, keeps
the items of each list on one chain (`Doc.WellLinked`, `replay_wellLinked`): all items with the
parent and the key of the list, each once, linked both ways. The newest entry of a key is the last
one of its chain, and the others are deleted, so that a key has one live value at most.
-/

namespace YCollab.Crdt

open Lib0 Links

/-- The items of the list `l` are the chain `chain`. -/
structure Doc.WellLinked (d : Doc) (l : ListID) (chain : List ID) : Prop where
  /-- The chain has the items of the list, each of them once. -/
  mem : ∀ x, x ∈ chain ↔ ∃ it, d.Stored it ∧ it.id = x ∧ it.parent = some l.parent ∧ it.key = l.key
  nodup : chain.Nodup
  /-- The walk from the start of a sequence goes over the chain. -/
  start : l.key = none → d.start l.parent = chain.head?
  walk : Path d.right chain.head? chain
  /-- The newest entry of a key is the right end of the chain; the walk back from it goes over the
  chain. -/
  newest : ∀ k, l.key = some k → d.mapItems l.parent k = chain.getLast?
  walkBack : Path d.left chain.getLast? chain.reverse
  /-- Left and right are inverse to each other along the chain. -/
  inverse : ∀ a b, a ∈ chain ∧ d.right a = some b ↔ b ∈ chain ∧ d.left b = some a
  /-- The left end has no left neighbour. -/
  first : ∀ x, chain.head? = some x → d.left x = none
  /-- An entry that is not the newest of its key is deleted. -/
  overwritten : ∀ k, l.key = some k → ∀ x ∈ chain, d.mapItems l.parent k ≠ some x →
    d.deleted x = true

variable {H : Shape} {d : Doc} {w : List ID} {ch : ListID → List Item} {hist bs : List Bytes}

theorem linked_inverse {left right : ID → Option ID} {chain : List ID}
    (h : Linked left right chain) (a b : ID) :
    a ∈ chain ∧ right a = some b ↔ b ∈ chain ∧ left b = some a := by
  constructor
  · rintro ⟨ha, hab⟩
    obtain ⟨A, B, rfl⟩ := List.append_of_mem ha
    rw [h.right_eq] at hab
    obtain ⟨B', rfl⟩ := List.head?_eq_some_iff.1 hab
    have h' : Linked left right ((A ++ [a]) ++ b :: B') := by simpa using h
    refine ⟨by simp, ?_⟩
    rw [h'.left_eq, List.getLast?_concat]
  · rintro ⟨hb, hba⟩
    obtain ⟨A, B, rfl⟩ := List.append_of_mem hb
    rw [h.left_eq] at hba
    obtain ⟨A', rfl⟩ := List.getLast?_eq_some_iff.1 hba
    have h' : Linked left right (A' ++ a :: b :: B) := by simpa using h
    refine ⟨by simp, ?_⟩
    rw [h'.right_eq]
    rfl

theorem Rep.overwritten_of_ne_last (h : Rep H d w ch) {l : ListID} (hkey : l.key ≠ none) {it : Item}
    (hit : it ∈ ch l) (hne : ((ch l).map Item.id).getLast? ≠ some it.id) :
    Overwritten H w it.id := by
  obtain ⟨hst, rfl⟩ := (h.stored l it).1 hit
  obtain ⟨P, Q, hpq⟩ := List.append_of_mem hit
  have hunits := units_of_entry (h.fits hst) hkey
  rw [h.overwritten_iff, hpq]
  refine ⟨hkey, ?_⟩
  cases Q with
  | nil => simp [hpq] at hne
  | cons q Q =>
    have hq : q ∈ ch (H.list it.id) := by simp [hpq]
    obtain ⟨hqst, hqlist⟩ := (h.stored _ q).1 hq
    have hqunits := units_of_entry (h.fits hqst) (by rwa [hqlist])
    have hsplit : allUnits (P ++ it :: q :: Q) = allUnits P ++ it.id :: q.id :: allUnits Q := by
      simp [allUnits, hunits, hqunits]
    rw [hsplit, List.dropLast_append_of_ne_nil (by simp), List.dropLast_cons_of_ne_nil (by simp)]
    simp

/-- A sound document is well linked. -/
theorem Sound.wellLinked (h : Sound H d w) (l : ListID) : ∃ chain, d.WellLinked l chain := by
  obtain ⟨ch, hr⟩ := h.rep
  have hlink := hr.linked l
  have hlist : ∀ it, d.Stored it → (H.list it.id = l ↔ it.parent = some l.parent ∧ it.key = l.key) :=
    fun it hst => by
      have hf := hr.fits hst
      rw [hf.parent, hf.key, Option.some.injEq]
      refine ⟨fun heq => heq ▸ ⟨rfl, rfl⟩, fun ⟨hp, hk⟩ => ?_⟩
      cases l
      exact ListID.mk.injEq .. ▸ ⟨hp, hk⟩
  refine ⟨(ch l).map Item.id, fun x => ?_, hr.nodup l, hr.head l, ?_, fun k => hr.last l k, ?_,
    linked_inverse hlink, fun x hx => ?_, fun k hk x hx hne => ?_⟩
  · simp only [List.mem_map, hr.stored]
    constructor
    · rintro ⟨it, ⟨hst, hl⟩, rfl⟩
      exact ⟨it, hst, rfl, (hlist it hst).1 hl⟩
    · rintro ⟨it, hst, rfl, hl⟩
      exact ⟨it, ⟨hst, (hlist it hst).2 hl⟩, rfl⟩
  · exact Path.of_linked (A := []) hlink
  · exact Path.of_linked_left (B := []) (by simpa using hlink)
  · obtain ⟨B, hB⟩ := List.head?_eq_some_iff.1 hx
    rw [hB] at hlink
    exact (hlink [] x B rfl).1
  · obtain ⟨it, hit, rfl⟩ := List.mem_map.1 hx
    obtain ⟨hst, -⟩ := (hr.stored l it).1 hit
    rw [hr.last l k hk] at hne
    have hgone := h.entry (hr.overwritten_of_ne_last (by simp [hk]) hit hne)
    exact (hst.gone_iff hr.gapless (hst.id_mem_units hr.gapless)).1 hgone

/-- **Lists stay well linked.** In a document that received updates of a well-formed history,
whichever and in whatever order, the items of every list form one chain. -/
theorem replay_wellLinked (h : WellFormed hist) (hbs : ∀ b ∈ bs, b ∈ hist) (l : ListID) :
    ∃ chain, (Doc.replay bs).WellLinked l chain := by
  obtain ⟨H, hS⟩ := h.exists_shape
  obtain ⟨w, ht, -⟩ := Told.replay hS.grounded fun b hb => hS.fitsIn h (hbs b hb)
  exact ht.sound.wellLinked l

/-- Two clients type into the root type `t`, and what the second one typed arrives first. -/
theorem replay_wellLinked_sample : WellFormed [Sample.ab, Sample.c] ∧
    (Doc.replay [Sample.c, Sample.ab]).WellLinked ⟨.root [116], none⟩ [⟨1, 0⟩, ⟨2, 0⟩] := by
  refine ⟨Sample.wellFormed, ?_⟩
  have hbs : ∀ b ∈ [Sample.c, Sample.ab], b ∈ [Sample.ab, Sample.c] := by simp
  obtain ⟨chain, h⟩ := replay_wellLinked Sample.wellFormed hbs ⟨.root [116], none⟩
  have hstart : (Doc.replay [Sample.c, Sample.ab]).start (.root [116]) = some ⟨1, 0⟩ := by
    decide +kernel
  have hright : (Doc.replay [Sample.c, Sample.ab]).right ⟨1, 0⟩ = some ⟨2, 0⟩ := by decide +kernel
  have hend : (Doc.replay [Sample.c, Sample.ab]).right ⟨2, 0⟩ = none := by decide +kernel
  have hpath : Path (Doc.replay [Sample.c, Sample.ab]).right chain.head? [⟨1, 0⟩, ⟨2, 0⟩] := by
    rw [← h.start rfl, hstart]
    refine .cons ?_
    rw [hright]
    refine .cons ?_
    rw [hend]
    exact .nil
  exact h.walk.unique hpath ▸ h

end YCollab.Crdt
