import YCollab.Crdt.Contains
import YCollab.Crdt.Convergence

/-!
# Splitting does not show

An item is split where a neighbour or a deletion needs a boundary. A document is looked at unit by
unit here: what it says about each clock unit (`Doc.viewAt`), the order of the units in its lists,
and the unit that is the newest of a key (`Doc.newest`). In a document that received updates of a
well-formed history a lookup that splits changes none of this (`replay_split_invisible`).

A lookup that fails returns the error of `Splice`, which is raised before anything is written, so
there is no document to compare with.
-/

namespace YCollab.Crdt

open Lib0 Yata Yata.Ops

/-- What a document says about one clock unit. -/
structure UnitView where
  content : Option ContentUnit
  parent : Option TypeID
  key : Option Bytes
  /-- What the unit was inserted after: inside an item the unit before it. -/
  origin : Option ID
  rightOrigin : Option ID
  deleted : Bool

namespace Doc

/-- What the document says about the unit `x`. -/
def viewAt (d : Doc) (x : ID) : Option UnitView :=
  (d.itemAt x).map fun it =>
    { content := it.content.unitList[x.clock - it.id.clock]?
      parent := it.parent
      key := it.key
      origin := it.originAt (x.clock - it.id.clock)
      rightOrigin := it.rightOrigin
      deleted := d.deleted it.id }

/-- The last unit of the newest item of a key. -/
def newest (d : Doc) (p : TypeID) (key : Bytes) : Option ID :=
  (d.mapItems p key).bind fun id => (d.itemAt id).map Item.lastID

/-- The two documents are the same, unit by unit, and the second has no gaps. -/
structure SameUnits (d d' : Doc) : Prop where
  gapless : d'.store.Gapless
  view : ∀ x, d'.viewAt x = d.viewAt x
  lists : ∀ l, d'.listUnits l = d.listUnits l
  newest : ∀ p key, d'.newest p key = d.newest p key

end Doc

variable {H : Shape} {d d' : Doc} {w : List ID} {ch ch' : ListID → List Item} {it p : Item} {x : ID}
  {hist bs : List Bytes}

theorem Item.originAt_head (h : Content) (i : ℕ) : (it.head h).originAt i = it.originAt i := by
  cases i <;> rfl

theorem Item.originAt_tail {k : ℕ} (h0 : 0 < k) (t : Content) (i : ℕ) :
    (it.tail k t).originAt i = it.originAt (k + i) := by
  obtain ⟨j, rfl⟩ := Nat.exists_eq_succ_of_ne_zero h0.ne'
  cases i with
  | zero => rfl
  | succ i => rw [originAt, unit_tail, ← Nat.add_assoc, originAt]

theorem Item.Piece.originAt_eq (hp : it.Piece p) (hx : x ∈ p.units) :
    p.originAt (x.clock - p.id.clock) = it.originAt (x.clock - it.id.clock) ∧
      p.rightOrigin = it.rightOrigin := by
  induction hp with
  | refl => exact ⟨rfl, rfl⟩
  | @head p h t k _ hs h0 hk ih =>
    obtain ⟨hc, hlo, hhi⟩ := mem_units.1 hx
    rw [len_head (Content.splice_cut hs hk.le), head_id] at hhi
    rw [originAt_head]
    exact ih (mem_units.2 ⟨hc, hlo, by omega⟩)
  | @tail p h t k _ hs h0 hk ih =>
    obtain ⟨hc, hlo, hhi⟩ := mem_units.1 hx
    rw [len_tail (Content.splice_cut hs hk.le)] at hhi
    simp only [tail_id, unit] at hc hlo hhi
    have hoff : k + (x.clock - (p.id.clock + k)) = x.clock - p.id.clock := by omega
    rw [originAt_tail h0, tail_id, unit, hoff]
    exact ih (mem_units.2 ⟨hc, by omega, by omega⟩)

namespace Rep

theorem newest_eq (h : Rep H d w ch) (p : TypeID) (key : Bytes) : d.newest p key =
    (H.ops.insertAll (w.filter fun x => H.list x = ⟨p, some key⟩)).getLast? := by
  rw [Doc.newest, h.last ⟨p, some key⟩ key rfl, ← h.flat]
  rcases List.eq_nil_or_concat (ch ⟨p, some key⟩) with hnil | ⟨P, c, hch⟩
  · simp [hnil]
  · have hst : d.Stored c := ((h.stored ⟨p, some key⟩ c).1 (by simp [hch])).1
    have hlast : c.units.getLast? = some c.lastID := by
      obtain ⟨n, hn⟩ := Nat.exists_eq_succ_of_ne_zero (hst.pos h.gapless).ne'
      simp [Item.units, hn, List.range_succ, Item.lastID, Item.unit]
    simp [hch, hst.itemAt h.gapless (hst.id_mem_units h.gapless), hlast]

theorem viewAt_eq (h : Rep H d w ch) (h' : Rep H d' w ch') (hc : Doc.Cuts d d') (x : ID) :
    d'.viewAt x = d.viewAt x := by
  by_cases hx : d.Has x
  · obtain ⟨it', hst', hx'⟩ := h'.exists_stored (hc.has.2 hx)
    obtain ⟨it, hst, hp⟩ := hc.pieces it' hst'
    have hxit := (hp.low hx').1
    obtain ⟨horigin, hright⟩ := hp.originAt_eq hx'
    obtain ⟨hparent, hsub, hkey⟩ := hp.parent_eq
    have hdel : d'.deleted it'.id = d.deleted it.id := by
      rw [Bool.eq_iff_iff, ← hst'.gone_iff h'.gapless hx', ← hst.gone_iff h.gapless hxit]
      exact hc.gone x
    rw [Doc.viewAt, Doc.viewAt, hst'.itemAt h'.gapless hx', hst.itemAt h.gapless hxit]
    simp only [Option.map_some, hp.unitList_eq hx', horigin, hright, hparent, hdel, Item.key, hsub,
      hkey]
  · have hnone : ∀ {d : Doc}, d.store.Gapless → ¬d.Has x → d.viewAt x = none := by
      intro d hg hx
      rw [Doc.viewAt, Option.map_eq_none_iff, Option.eq_none_iff_forall_ne_some]
      intro it hit
      obtain ⟨hst, hmem⟩ := Doc.stored_of_itemAt hg hit
      exact hx (hst.has hg hmem)
    rw [hnone h.gapless hx, hnone h'.gapless (hc.has.not.2 hx)]

theorem sameUnits (h : Rep H d w ch) (h' : Rep H d' w ch') (hc : Doc.Cuts d d') :
    d.SameUnits d' where
  gapless := h'.gapless
  view := h.viewAt_eq h' hc
  lists l := by rw [h.listUnits_eq, h'.listUnits_eq]
  newest p key := by rw [h.newest_eq, h'.newest_eq]

theorem lowAt_of_low (h : Rep H d w ch) (hst : d.Stored it) (hx : x ∈ it.units) (hlow : H.low x) :
    d.LowAt x := by
  rw [hst.lowAt_iff h.gapless hx]
  obtain ⟨i, hi, rfl⟩ := List.mem_map.1 hx
  simpa [Item.unit] using ((h.fits hst).low i (List.mem_range.1 hi)).1 hlow

theorem cleanStart_same (h : Rep H d w ch) (hH : H.Lawful) (hst : d.Stored it) (hx : x ∈ it.units)
    (hok : d.getItemCleanStart x = .ok (d', p)) : p.id = x ∧ d'.Stored p ∧ d.SameUnits d' := by
  obtain ⟨hclean, hid⟩ := Doc.cleanStart_ok h.gapless hok
  have hlow : ¬H.low x := fun hlow =>
    (Doc.cleanStart_isOk h.gapless hst hx).1 ⟨d', p, hok⟩ (h.lowAt_of_low hst hx hlow)
  obtain ⟨d₁, it₁, ch₁, hok₁, hrep⟩ := h.cleanStart hH (hst.has h.gapless hx) hlow
  obtain ⟨rfl, rfl⟩ := Prod.mk.inj (Except.ok.inj (hok.symm.trans hok₁))
  exact ⟨hid, hclean.stored, h.sameUnits hrep hclean.cuts⟩

theorem cleanEnd_same (h : Rep H d w ch) (hH : H.Lawful) (hst : d.Stored it) (hx : x ∈ it.units)
    (hok : d.getItemCleanEnd x = .ok (d', p)) : p.lastID = x ∧ d'.Stored p ∧ d.SameUnits d' := by
  obtain ⟨hclean, hid⟩ := Doc.cleanEnd_ok h.gapless hok
  obtain ⟨hcl, hlo, hhi⟩ := Item.mem_units.1 hx
  have hlow : ¬H.low x.next := by
    intro hlow
    by_cases hend : x.clock + 1 < it.id.clock + it.len
    · have hnext : x.next ∈ it.units := Item.mem_units.2 ⟨hcl, Nat.le_succ_of_le hlo, hend⟩
      exact (Doc.cleanEnd_isOk h.gapless hst hx).1 ⟨d', p, hok⟩ (h.lowAt_of_low hst hnext hlow)
    · -- behind the last unit of an item there is never half a pair
      refine (h.fits hst).low_end (hst.pos h.gapless) ?_
      rwa [show it.unit it.len = x.next from
        ID.ext hcl.symm (by simp only [Item.unit, ID.next]; omega)]
  obtain ⟨d₁, it₁, ch₁, hok₁, hrep⟩ := h.cleanEnd hH (hst.has h.gapless hx) hlow
  obtain ⟨rfl, rfl⟩ := Prod.mk.inj (Except.ok.inj (hok.symm.trans hok₁))
  exact ⟨hid, hclean.stored, h.sameUnits hrep hclean.cuts⟩

end Rep

/-- **Splitting is invisible.** In a document that received updates of a well-formed history, a
lookup of a unit that an item covers fails, or returns an item with the boundary that was asked
for and leaves the document as it was, unit by unit. -/
theorem replay_split_invisible (h : WellFormed hist) (hbs : ∀ b ∈ bs, b ∈ hist)
    (hx : ((Doc.replay bs).itemAt x).isSome) :
    ((∃ err, (Doc.replay bs).getItemCleanStart x = .error err) ∨
      ∃ d it, (Doc.replay bs).getItemCleanStart x = .ok (d, it) ∧ it.id = x ∧ d.Stored it ∧
        (Doc.replay bs).SameUnits d) ∧
    ((∃ err, (Doc.replay bs).getItemCleanEnd x = .error err) ∨
      ∃ d it, (Doc.replay bs).getItemCleanEnd x = .ok (d, it) ∧ it.lastID = x ∧ d.Stored it ∧
        (Doc.replay bs).SameUnits d) := by
  obtain ⟨H, hS⟩ := h.exists_shape
  obtain ⟨w, ht, -⟩ := Told.replay hS.grounded fun b hb => hS.fitsIn h (hbs b hb)
  obtain ⟨ch, hrep⟩ := ht.sound.rep
  obtain ⟨it, hit⟩ := Option.isSome_iff_exists.1 hx
  obtain ⟨hst, hmem⟩ := Doc.stored_of_itemAt hrep.gapless hit
  constructor
  · cases hok : (Doc.replay bs).getItemCleanStart x with
    | error err => exact .inl ⟨err, rfl⟩
    | ok r => exact .inr ⟨r.1, r.2, rfl, hrep.cleanStart_same hS.grounded.toLawful hst hmem hok⟩
  · cases hok : (Doc.replay bs).getItemCleanEnd x with
    | error err => exact .inl ⟨err, rfl⟩
    | ok r => exact .inr ⟨r.1, r.2, rfl, hrep.cleanEnd_same hS.grounded.toLawful hst hmem hok⟩

/-- The text `ab` is cut in front of its second unit. -/
theorem replay_split_invisible_ab : ∃ d it,
    (Doc.replay [Sample.ab]).getItemCleanStart ⟨1, 1⟩ = .ok (d, it) ∧ it.id = ⟨1, 1⟩ ∧
      (Doc.replay [Sample.ab]).SameUnits d := by
  have hok : ((Doc.replay [Sample.ab]).getItemCleanStart ⟨1, 1⟩).isOk = true := by decide +kernel
  have hin : ((Doc.replay [Sample.ab]).itemAt ⟨1, 1⟩).isSome := by decide +kernel
  rcases (replay_split_invisible Sample.wellFormed (by simp) hin).1 with
    ⟨err, herr⟩ | ⟨d, it, heq, hid, -, hsame⟩
  · rw [herr] at hok
    cases hok
  · exact ⟨d, it, heq, hid, hsame⟩

end YCollab.Crdt
