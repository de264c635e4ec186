import YCollab.Crdt.Rep

/-!
# Placing an item

The scan of `resolveConflict` over the items of a list is the scan of `Yata.Ops.insert` over their
units, item by item (`Rep.conflictLoop_spec`), and linking an item into its list inserts its units
(`Rep.link`).
-/

namespace YCollab.Crdt

open Yata Yata.Ops

variable {H : Shape} {d : Doc} {w : List ID} {ch : ListID → List Item} {it c : Item} {x : ID}

/-- The units of some items, one after the other. -/
abbrev allUnits (P : List Item) : List ID := P.flatMap Item.units

theorem allUnits_append (P Q : List Item) : allUnits (P ++ Q) = allUnits P ++ allUnits Q :=
  List.flatMap_append

namespace Shape

theorem Fits.follows_units (h : H.Fits it) (hpos : 0 < it.len) :
    ∃ ys, it.units = it.id :: ys ∧ H.ops.Follows it.id ys := by
  have hrun : ∀ n i, i + n < it.len →
      H.ops.Follows (it.unit i) ((List.range n).map fun j => it.unit (i + 1 + j)) := by
    intro n
    induction n with
    | zero => exact fun _ _ => trivial
    | succ n ih =>
      intro i hi
      rw [List.range_succ_eq_map, List.map_cons, List.map_map]
      refine ⟨h.follows i (by omega), ?_⟩
      have := ih (i + 1) (by omega)
      simpa [Function.comp_def, Nat.add_assoc, Nat.add_comm, Nat.add_left_comm] using this
  obtain ⟨n, hn⟩ := Nat.exists_eq_add_of_lt hpos
  refine ⟨(List.range n).map fun j => it.unit (0 + 1 + j), ?_, ?_⟩
  · rw [Item.units, hn, Nat.zero_add, List.range_succ_eq_map, List.map_cons, List.map_map]
    simp [Function.comp_def, Nat.add_comm]
  · simpa using hrun n 0 (by omega)

end Shape

namespace Rep

theorem mem_flat_iff (h : Rep H d w ch) {P : List Item} (hP : ∀ q ∈ P, d.Stored q)
    (hst : d.Stored c) (hx : x ∈ c.units) : x ∈ allUnits P ↔ c.id ∈ P.map Item.id := by
  constructor
  · intro hm
    obtain ⟨q, hq, hxq⟩ := List.mem_flatMap.1 hm
    obtain rfl := hst.unique (hP q hq) h.gapless hx hxq
    exact List.mem_map_of_mem hq
  · intro hm
    obtain ⟨q, hq, hid⟩ := List.mem_map.1 hm
    have hxq : c.id ∈ q.units := hid ▸ (hP q hq).id_mem_units h.gapless
    obtain rfl := hst.unique (hP q hq) h.gapless (hst.id_mem_units h.gapless) hxq
    exact List.mem_flatMap.2 ⟨c, hq, hx⟩

theorem has_of_dep (h : Rep H d w ch) (hH : H.Lawful) {y : ID} (hx : d.Has x) (hd : H.Dep x y) :
    d.Has y := by
  have hxw := (h.mem x).2 hx
  have hmem := h.causal.mem_of hxw
  exact (h.mem y).1 (h.causal.closed hxw (hH.dep_mem hmem hd) (.single hd))

/-- What is fixed while the scan for the place of `it` goes on: its list, of which `Pd` and `Pp`
have been scanned and `C` has not, and where its neighbours are. -/
structure Scanning (H : Shape) (d : Doc) (ch : ListID → List Item) (it : Item)
    (Pd Pp C : List Item) : Prop where
  fits : H.FitsStored it
  chain : ∃ Z, ch (H.list it.id) = Z ++ (Pd ++ Pp ++ C)
  origin : ∀ y ∈ allUnits (Pd ++ Pp ++ C), H.origin it.id ≠ some y
  right : ∀ r, it.rightOrigin = some r → ∃ c, d.Stored c ∧ c.id = r

namespace Scanning

variable {Pd Pp C : List Item}

theorem stored (hs : Scanning H d ch it Pd Pp C) (h : Rep H d w ch) {q : Item}
    (hq : q ∈ Pd ++ Pp ++ C) : d.Stored q := by
  obtain ⟨Z, hZ⟩ := hs.chain
  exact ((h.stored _ q).1 (hZ ▸ List.mem_append_right _ hq)).1

theorem next (hs : Scanning H d ch it Pd Pp (c :: C)) (h : Rep H d w ch) :
    d.right c.id = (C.map Item.id).head? := by
  obtain ⟨Z, hZ⟩ := hs.chain
  have hlink := h.linked (H.list it.id)
  rw [hZ] at hlink
  have hids : (Z ++ (Pd ++ Pp ++ c :: C)).map Item.id =
      (Z ++ (Pd ++ Pp)).map Item.id ++ c.id :: C.map Item.id := by simp
  exact (hids ▸ hlink).right_eq

theorem settle (hs : Scanning H d ch it Pd Pp (c :: C)) :
    Scanning H d ch it (Pd ++ Pp ++ [c]) [] C where
  fits := hs.fits
  chain := by simpa using hs.chain
  origin := by simpa using hs.origin
  right := hs.right

theorem walk (hs : Scanning H d ch it Pd Pp (c :: C)) : Scanning H d ch it Pd (Pp ++ [c]) C where
  fits := hs.fits
  chain := by simpa using hs.chain
  origin := by simpa using hs.origin
  right := hs.right

theorem right_ne (hs : Scanning H d ch it Pd Pp (c :: C)) (h : Rep H d w ch) {ys : List ID}
    (hunits : c.units = c.id :: ys) {y : ID} (hy : y ∈ ys) : H.ops.right it.id ≠ some y := by
  have hst := hs.stored h (q := c) (by simp)
  intro heq
  obtain ⟨q, hq, rfl⟩ := hs.right y ((hs.fits.right 0 hs.fits.pos).symm.trans heq)
  have hmem : q.id ∈ c.units := hunits ▸ List.mem_cons_of_mem _ hy
  obtain rfl := hst.unique hq h.gapless hmem (hq.id_mem_units h.gapless)
  have hnd : c.units.Nodup := by
    refine List.Nodup.map (fun i j hij => ?_) List.nodup_range
    simpa [Item.unit] using hij
  rw [hunits] at hnd
  exact (List.nodup_cons.1 hnd).1 hy

variable {D R : List ID}

theorem scan_settle (hs : Scanning H d ch it Pd Pp (c :: C)) (h : Rep H d w ch) {ys : List ID}
    (hunits : c.units = c.id :: ys) (hys : H.ops.Follows c.id ys) :
    H.ops.scan it.id (D ++ [c.id]) [] (ys ++ R) = H.ops.scan it.id (D ++ c.units) [] R := by
  rw [scan_run_done hys (by simp) (fun y hy => ?_) fun y hy => hs.right_ne h hunits hy, hunits]
  · simp
  · exact hs.origin y (List.mem_flatMap.2 ⟨c, by simp, hunits ▸ hy⟩)

theorem scan_walk (hs : Scanning H d ch it Pd Pp (c :: C)) (h : Rep H d w ch) {ys : List ID}
    (hunits : c.units = c.id :: ys) (hys : H.ops.Follows c.id ys) {W : List ID} :
    H.ops.scan it.id D (W ++ [c.id]) (ys ++ R) = H.ops.scan it.id D (W ++ c.units) R := by
  rw [scan_run_pass hys (by simp) (fun y hy => ?_) fun y hy => hs.right_ne h hunits hy, hunits]
  · simp
  · exact hs.origin y (List.mem_flatMap.2 ⟨c, by simp, hunits ▸ hy⟩)

end Scanning

/-- A scan over the items `T` that ended to the right of `last`, and a scan over their units that
ended with `r`, cut `T` at the same place. -/
def SameCut (T : List Item) (left last : Option ID) (r : List ID × List ID) : Prop :=
  ∃ P R, P ++ R = T ∧ last = ((P.map Item.id).getLast?).or left ∧ r = (allUnits P, allUnits R)

/-- The origin of the next item is a unit of some item of the store, which is found among those that
have been scanned exactly if the unit is found among theirs. -/
theorem Scanning.exists_origin {Pd Pp C : List Item} (hs : Scanning H d ch it Pd Pp (c :: C))
    (h : Rep H d w ch) (hH : H.Lawful) {p : ID} (hp : c.origin = some p) :
    ∃ o, d.itemAt p = some o ∧ o.id ≠ c.id ∧ (p ∈ allUnits Pp ↔ o.id ∈ Pp.map Item.id) ∧
      (p ∈ allUnits Pd ↔ o.id ∈ Pd.map Item.id) := by
  have hst := hs.stored h (q := c) (by simp)
  have hf := h.fits hst
  have hpH : H.origin c.id = some p := (hf.origin hf.pos).trans hp
  have hhas : d.Has p := h.has_of_dep hH (hst.has h.gapless (hst.id_mem_units h.gapless))
    (.origin hpH)
  obtain ⟨o, ho, hpo⟩ := h.exists_stored hhas
  refine ⟨o, ho.itemAt h.gapless hpo, fun hid => ?_,
    h.mem_flat_iff (fun q hq => hs.stored h (by simp [hq])) ho hpo,
    h.mem_flat_iff (fun q hq => hs.stored h (by simp [hq])) ho hpo⟩
  obtain rfl := ho.unique hst h.gapless (ho.id_mem_units h.gapless)
    (hid ▸ hst.id_mem_units h.gapless)
  exact hf.origin_not_mem hH hpH hpo

/-- **One turn.** The loop over items and the scan over units both stop in front of the next item,
or both settle it to the left, or both walk over it. -/
theorem conflictLoop_turn (h : Rep H d w ch) (hH : H.Lawful) {Pd Pp C : List Item}
    (hs : Scanning H d ch it Pd Pp (c :: C)) {fuel : ℕ} {left : Option ID}
    {before conflicting ys : List ID}
    (hb : ∀ a, a ∈ before ↔ a ∈ (Pd ++ Pp).map Item.id)
    (hcf : ∀ a, a ∈ conflicting ↔ a ∈ Pp.map Item.id)
    {Q : Option ID → List ID × List ID → Prop}
    (hstop : Q left (allUnits Pd, allUnits Pp ++ c.id :: (ys ++ allUnits C)))
    (hsettle : Q (d.conflictLoop it it.rightOrigin fuel (d.right c.id) (some c.id)
        (c.id :: before) [])
      (H.ops.scan it.id (allUnits Pd ++ allUnits Pp ++ [c.id]) [] (ys ++ allUnits C)))
    (hwalk : Q (d.conflictLoop it it.rightOrigin fuel (d.right c.id) left (c.id :: before)
        (c.id :: conflicting))
      (H.ops.scan it.id (allUnits Pd) (allUnits Pp ++ [c.id]) (ys ++ allUnits C))) :
    Q (d.conflictLoop it it.rightOrigin (fuel + 1) (some c.id) left before conflicting)
      (H.ops.scan it.id (allUnits Pd) (allUnits Pp) (c.id :: (ys ++ allUnits C))) := by
  have hst := hs.stored h (q := c) (by simp)
  have hf := h.fits hst
  have hat := hst.itemAt h.gapless (hst.id_mem_units h.gapless)
  have hox : H.ops.origin it.id = it.origin := hs.fits.origin hs.fits.pos
  have hrx : H.ops.right it.id = it.rightOrigin := hs.fits.right 0 hs.fits.pos
  have hoc : H.ops.origin c.id = c.origin := hf.origin hf.pos
  have hrc : H.ops.right c.id = c.rightOrigin := hf.right 0 hf.pos
  simp only [Doc.conflictLoop, hat]
  rw [scan, hrx]
  by_cases hright : it.rightOrigin = some c.id
  · rw [if_pos hright, if_pos hright]
    exact hstop
  rw [if_neg hright, if_neg hright, hox, hoc, hrc]
  by_cases horigin : it.origin = c.origin
  · rw [if_pos horigin, if_pos horigin.symm]
    change Q (if c.id.client < it.id.client then _ else _)
      (if c.id.client < it.id.client then _ else _)
    split
    · exact hsettle
    · by_cases hr : it.rightOrigin = c.rightOrigin
      · rw [if_pos hr, if_pos hr.symm]
        exact hstop
      · rw [if_neg hr, if_neg (Ne.symm hr)]
        exact hwalk
  rw [if_neg horigin, if_neg (Ne.symm horigin)]
  cases hp : c.origin with
  | none => exact hstop
  | some p =>
    obtain ⟨o, hitem, hne, hpass, hdone⟩ := hs.exists_origin h hH hp
    have hbefore : o.id ∈ c.id :: before ↔ p ∈ allUnits Pd ∨ p ∈ allUnits Pp := by
      rw [List.mem_cons, or_iff_right hne, hb, List.map_append, List.mem_append, hdone, hpass]
    have hconf : o.id ∈ c.id :: conflicting ↔ p ∈ allUnits Pp := by
      rw [List.mem_cons, or_iff_right hne, hcf, hpass]
    rw [Option.bind_some, hitem]
    simp only [hbefore, hconf]
    by_cases h1 : p ∈ allUnits Pp
    · rw [if_pos (.inr h1), if_pos h1, if_pos h1]
      exact hwalk
    · by_cases h2 : p ∈ allUnits Pd
      · rw [if_pos (.inl h2), if_neg h1, if_neg h1, if_pos h2]
        exact hsettle
      · rw [if_neg (by simp only [h1, h2, or_self, not_false_eq_true]), if_neg h1, if_neg h2]
        exact hstop

/-- The scan over items does what the scan over units does. -/
theorem conflictLoop_spec (h : Rep H d w ch) (hH : H.Lawful) {C : List Item} :
    ∀ (fuel : ℕ) (Pd Pp : List Item) (left : Option ID) (before conflicting : List ID),
      Scanning H d ch it Pd Pp C → C.length < fuel →
      (∀ a, a ∈ before ↔ a ∈ (Pd ++ Pp).map Item.id) →
      (∀ a, a ∈ conflicting ↔ a ∈ Pp.map Item.id) →
      SameCut (Pd ++ Pp ++ C) left
        (d.conflictLoop it it.rightOrigin fuel ((C.map Item.id).head?)
          (((Pd.map Item.id).getLast?).or left) before conflicting)
        (H.ops.scan it.id (allUnits Pd) (allUnits Pp) (allUnits C)) := by
  induction C with
  | nil =>
    rintro (_ | fuel) Pd Pp left before conflicting hs hfuel hb hcf
    · simp at hfuel
    · exact ⟨Pd, Pp, by simp, by simp [Doc.conflictLoop], by simp [scan]⟩
  | cons c C ih =>
    rintro (_ | fuel) Pd Pp left before conflicting hs hfuel hb hcf
    · simp at hfuel
    have hf := h.fits (hs.stored h (q := c) (by simp))
    obtain ⟨ys, hunits, hys⟩ := hf.follows_units hf.pos
    have hcons : allUnits (c :: C) = c.id :: (ys ++ allUnits C) := by simp [allUnits, hunits]
    have hfuel' : C.length < fuel := by simpa using hfuel
    have hsnoc : ∀ (P : List Item) l, (∀ a, a ∈ l ↔ a ∈ P.map Item.id) →
        ∀ a, a ∈ c.id :: l ↔ a ∈ (P ++ [c]).map Item.id := by
      intro P l hl a
      rw [List.mem_cons, hl, List.map_append, List.mem_append, List.map_singleton,
        List.mem_singleton, or_comm]
    have hb' := hsnoc (Pd ++ Pp) before hb
    rw [hcons]
    refine conflictLoop_turn h hH hs hb hcf ?_ ?_ ?_
    · exact ⟨Pd, Pp ++ c :: C, by simp, rfl, by simp [hunits]⟩
    · have := ih fuel (Pd ++ Pp ++ [c]) [] left (c.id :: before) [] hs.settle hfuel'
        (by simpa using hb') (by simp)
      rw [hs.next h, hs.scan_settle h hunits hys]
      simpa [allUnits] using this
    · have := ih fuel Pd (Pp ++ [c]) left (c.id :: before) (c.id :: conflicting) hs.walk hfuel'
        (by simpa using hb') (hsnoc Pp conflicting hcf)
      rw [hs.next h, hs.scan_walk h hunits hys]
      simpa [allUnits] using this

end Rep

end YCollab.Crdt
