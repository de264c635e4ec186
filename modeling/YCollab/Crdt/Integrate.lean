import YCollab.Crdt.Link
import YCollab.Crdt.Turn

/-!
# Integrating an item

`resolve` looks up the neighbours and the parent of a decoded item, `trim` drops the units the
document has already, and `integrateItem` puts the rest into its list. For an item that fits the
shape of the history, and whose neighbours are where its author saw them, each of the three
succeeds, and the document then represents the new units as well (`Rep.integrateItem`).
-/

namespace YCollab.Crdt

open Yata Yata.Ops

variable {H : Shape} {d d' : Doc} {w : List ID} {ch : ListID → List Item} {it c : Item} {x : ID}

theorem Item.units_eq_append (hpos : 0 < it.len) : ∃ ys, it.units = ys ++ [it.lastID] := by
  obtain ⟨n, hn⟩ := Nat.exists_eq_add_of_lt hpos
  refine ⟨(List.range n).map it.unit, ?_⟩
  rw [Item.units, hn, Nat.zero_add, List.range_succ, List.map_append]
  simp [Item.unit, Item.lastID, hn]

theorem Item.lastID_mem_units (hpos : 0 < it.len) : it.lastID ∈ it.units := by
  obtain ⟨ys, h⟩ := Item.units_eq_append hpos
  simp [h]

namespace Rep

/-! ### What an item depends on -/

theorem has_of_not_missing (hH : H.Lawful) (hmem : H.mem it.id) {o : Option ID} {y : ID}
    (hclock : it.id.clock ≤ d.state it.id.client) (hm : d.missing it.id o = false) (ho : o = some y)
    (hd : H.Dep it.id y) : d.Has y := by
  subst ho
  by_cases hc : y.client = it.id.client
  · -- of the same client: an item depends on earlier units only
    have hlt : y.clock < it.id.clock := by
      by_contra hge
      obtain ⟨c, k⟩ := y
      obtain rfl : c = it.id.client := hc
      rcases (Nat.le_of_not_lt hge).lt_or_eq with hlt | heq
      · exact hH.past_irrefl hmem (.head hd (Shape.past_of_lt hlt))
      · obtain rfl : it.id.clock = k := heq
        exact hH.past_irrefl hmem (.single hd)
    unfold Doc.Has
    rw [hc]
    omega
  · simpa [Doc.missing, hc, Doc.Has] using hm

/-- All an item depends on has been integrated, once nothing it refers to is missing. -/
theorem deps (h : Rep H d w ch) (hH : H.Lawful) (hf : H.FitsWire it) (hpos : 0 < it.len)
    (hclock : it.id.clock ≤ d.state it.id.client) (hk : d.Known it) {y : ID}
    (hd : H.Dep it.id y) : d.Has y := by
  have hmem : H.mem it.id := hf.mem 0 hpos
  have horigin : ∀ {o}, it.origin = some o → d.Has o := fun ho =>
    has_of_not_missing hH hmem hclock hk.1 ho (.origin ((hf.origin hpos).trans ho))
  have hright : ∀ {r}, it.rightOrigin = some r → d.Has r := fun hr =>
    has_of_not_missing hH hmem hclock hk.2.1 hr (.right ((hf.right 0 hpos).trans hr))
  generalize hx : it.id = x at hd
  cases hd with
  | prev c k =>
    unfold Doc.Has
    simp only [hx] at hclock
    exact hclock
  | origin ho => exact horigin (by rw [← hf.origin hpos, hx, ho])
  | right hr => exact hright (by rw [← hf.right 0 hpos, Item.unit_zero, hx, hr])
  | owner ho =>
    subst hx
    cases hp : it.wireParent with
    | some p =>
      have hlist := hf.parent p hp hpos
      rw [hlist] at ho
      cases p with
      | root name => cases ho
      | item owner =>
        obtain rfl : owner = y := TypeID.nested.inj ho
        exact has_of_not_missing hH hmem hclock hk.2.2 (by simp [Doc.ownerID, hp])
          (.owner (by rw [hlist]; rfl))
    | none =>
      -- the neighbour that the parent is taken from depends on the owner as well
      cases ho' : it.origin with
      | some o =>
        have hlist := hH.origin_list hmem ((hf.origin hpos).trans ho')
        exact h.has_of_dep hH (horigin ho') (.owner (hlist ▸ ho))
      | none =>
        cases hr' : it.rightOrigin with
        | some r =>
          have hlist := hH.right_list hmem ((hf.right 0 hpos).trans hr')
          exact h.has_of_dep hH (hright hr') (.owner (hlist ▸ ho))
        | none => exact absurd hp (hf.alone ho' hr')

/-! ### Looking up the neighbours -/

/-- The item is ready to be linked: it knows its list, and `left` and `right` are the items its
neighbours end and start. -/
structure Resolved (H : Shape) (d : Doc) (it : Item) (left right : Option ID) : Prop where
  fits : H.FitsStored it
  left : it.origin = none ∧ left = none ∨
    ∃ l, d.Stored l ∧ left = some l.id ∧ it.origin = some l.lastID
  right : right = it.rightOrigin
  start : ∀ r, it.rightOrigin = some r → ∃ c, d.Stored c ∧ c.id = r

/-- The neighbours of an item are in its author's order. -/
def Straddles (H : Shape) (w : List ID) (x : ID) : Prop :=
  ∀ o r, H.origin x = some o → H.right x = some r →
    Before (H.ops.insertAll (w.filter fun y => H.list y = H.list x)) o r

/-- An item that was found as a left neighbour does not hold the right neighbour. -/
theorem right_not_mem_left (h : Rep H d w ch) {l : Item} {r : ID}
    (hl : d.Stored l) (hlist : H.list l.id = H.list x)
    (hb : Before (H.ops.insertAll (w.filter fun y => H.list y = H.list x)) l.lastID r) :
    r ∉ l.units := by
  intro hr
  have hpos := (h.fits hl).pos
  obtain ⟨ys, hys⟩ := Item.units_eq_append hpos
  obtain ⟨A, B, hAB⟩ := List.append_of_mem ((h.stored (H.list x) l).2 ⟨hl, hlist⟩)
  have hnd := h.nodup_units (H.list x)
  rw [← h.flat] at hb
  have hsplit : allUnits (ch (H.list x)) = allUnits A ++ (ys ++ [l.lastID]) ++ allUnits B := by
    simp [hAB, allUnits, hys]
  rw [hsplit] at hnd
  rw [show (ch (H.list x)).flatMap Item.units = _ from hsplit] at hb
  rw [hys] at hr
  rcases List.mem_append.1 hr with hr | hr
  · have : Before (allUnits A ++ (ys ++ [l.lastID]) ++ allUnits B) r l.lastID :=
      (before_of_mem hr (by simp)).append_right.append_left
    exact this.asymm hnd hb
  · rw [List.mem_singleton.1 hr] at hb
    exact hb.asymm hnd hb

theorem list_lastID (h : Rep H d w ch) (hH : H.Lawful) {l : Item} (hl : d.Stored l) :
    H.list l.lastID = H.list l.id := by
  have hpos := (h.fits hl).pos
  have : l.lastID = l.unit (l.len - 1) := ID.ext rfl (by simp [Item.lastID, Item.unit]; omega)
  rw [this]
  exact (h.fits hl).list_eq hH (by omega)

/-- The parent that the wire, or a neighbour, names is the one the history says. -/
theorem resolveParent (h : Rep H d w ch) (hH : H.Lawful) (hf : H.FitsWire it) (hpos : 0 < it.len)
    (hdeps : ∀ {y}, H.Dep it.id y → d.Has y) {left right : Option Item}
    (hleft : ∀ l, left = some l → d.Stored l ∧ H.list l.id = H.list it.id)
    (hright : ∀ r, right = some r → d.Stored r ∧ H.list r.id = H.list it.id)
    (hnone : left = none → right = none → it.origin = none ∧ it.rightOrigin = none) :
    ∃ sub name, d.resolveParent it left right =
        { it with parent := some (H.list it.id).parent, hasParentSub := sub, parentSub := name } ∧
      (if sub then some name else none) = (H.list it.id).key := by
  unfold Doc.resolveParent
  cases hp : it.wireParent with
  | none =>
    have hn : ∃ n, left.or right = some n ∧ d.Stored n ∧ H.list n.id = H.list it.id := by
      cases left with
      | some l => exact ⟨l, rfl, hleft l rfl⟩
      | none =>
        cases right with
        | some r => exact ⟨r, rfl, hright r rfl⟩
        | none =>
          obtain ⟨ho, hr⟩ := hnone rfl rfl
          exact absurd hp (hf.alone ho hr)
    obtain ⟨n, hn, hst, hlist⟩ := hn
    have hfn := h.fits hst
    refine ⟨n.hasParentSub, n.parentSub, ?_, ?_⟩
    · simp only [hn, hfn.parent, hlist]
    · rw [← hlist, ← hfn.key]
      rfl
  | some p =>
    have hlist := hf.parent p hp hpos
    refine ⟨it.hasParentSub, it.parentSub, ?_, by rw [hlist]; rfl⟩
    cases p with
    | root name => simp [hlist, ParentInfo.typeID]
    | item owner =>
      have hpar : (H.list it.id).parent = .nested owner := by rw [hlist]; rfl
      obtain ⟨o, hst, ho⟩ := h.exists_stored (hdeps (.owner hpar))
      obtain ⟨hc, hlo, hhi⟩ := Item.mem_units.1 ho
      obtain ⟨i, hi, hunit⟩ := List.mem_map.1 ho
      have htype : o.content.isType = true :=
        ((h.fits hst).type i (List.mem_range.1 hi)).1
          (hunit ▸ hH.owner_type (hf.mem 0 hpos) hpar)
      have hid : o.id = owner := by
        have hlen : o.len = 1 := Content.len_of_isType htype
        exact ID.ext hc.symm (by omega)
      have hget : d.store.getItem owner = .ok o := h.gapless.getItem_eq (hc ▸ hst) hlo hhi
      cases hcont : o.content with
      | type ref name => simp [hget, hcont, hpar, hid]
      | _ => simp [hcont, Content.isType] at htype

theorem resolveLeft (h : Rep H d w ch) (hH : H.Lawful) {o : Option ID}
    (ho : ∀ y, o = some y → d.Has y ∧ ¬H.low y.next) :
    ∃ d' left ch', d.resolveNeighbour Doc.getItemCleanEnd o = .ok (d', left) ∧ Doc.Cuts d d' ∧
      Rep H d' w ch' ∧ left.map Item.lastID = o ∧ ∀ l, left = some l → d'.Stored l := by
  cases o with
  | none => exact ⟨d, none, ch, rfl, .refl h.gapless, h, rfl, fun _ hl => by cases hl⟩
  | some y =>
    obtain ⟨hhas, hlow⟩ := ho y rfl
    obtain ⟨d', l, ch', hclean, hrep⟩ := h.cleanEnd hH hhas hlow
    obtain ⟨hc, hlast⟩ := Doc.cleanEnd_ok h.gapless hclean
    refine ⟨d', some l, ch', by simp [Doc.resolveNeighbour, hclean], hc.cuts, hrep, by simp [hlast],
      fun l' hl' => ?_⟩
    cases hl'
    exact hc.stored

/-- The right neighbour is found, where the shape allows a cut, and only the item that held it
changes. -/
theorem resolveRight (h : Rep H d w ch) (hH : H.Lawful) {r : Option ID}
    (hr : ∀ y, r = some y → d.Has y ∧ ¬H.low y) :
    ∃ d' right ch', d.resolveNeighbour Doc.getItemCleanStart r = .ok (d', right) ∧ Doc.Cuts d d' ∧
      Rep H d' w ch' ∧ right.map Item.id = r ∧ (∀ q, right = some q → d'.Stored q) ∧
      ∀ q, d.Stored q → (∀ y, r = some y → y ∉ q.units) → d'.Stored q := by
  cases r with
  | none =>
    exact ⟨d, none, ch, rfl, .refl h.gapless, h, rfl, fun _ hq => (by cases hq), fun _ hq _ => hq⟩
  | some y =>
    obtain ⟨hhas, hlow⟩ := hr y rfl
    obtain ⟨d', q, ch', hclean, hrep⟩ := h.cleanStart hH hhas hlow
    obtain ⟨hc, hid⟩ := Doc.cleanStart_ok h.gapless hclean
    refine ⟨d', some q, ch', by simp [Doc.resolveNeighbour, hclean], hc.cuts, hrep, by simp [hid],
      fun q' hq' => ?_, fun q' hq' hy => hc.frame q' hq' (hy y rfl)⟩
    cases hq'
    exact hc.stored

theorem not_low_id (hf : H.Fits it) (hpos : 0 < it.len) : ¬H.low it.id := fun hl => by
  have := (hf.low 0 hpos).1 hl
  rw [Content.lowAt_zero] at this
  cases this

theorem resolve (h : Rep H d w ch) (hH : H.Lawful) (hf : H.FitsWire it) (hpos : 0 < it.len)
    (hclock : it.id.clock ≤ d.state it.id.client) (hk : d.Known it) (hs : Straddles H w it.id) :
    ∃ d' it' left right ch' sub name, d.resolve it = some (d', it', left, right) ∧
      Doc.Cuts d d' ∧ Rep H d' w ch' ∧ Resolved H d' it' left right ∧
      it' = { it with
        parent := some (H.list it.id).parent, hasParentSub := sub, parentSub := name } := by
  have hmem : H.mem it.id := hf.mem 0 hpos
  have hO : ∀ {o}, it.origin = some o → H.origin it.id = some o := (hf.origin hpos).trans
  have hR : ∀ {r}, it.rightOrigin = some r → H.right it.id = some r := (hf.right 0 hpos).trans
  have hdeps : ∀ {y}, H.Dep it.id y → d.Has y := h.deps hH hf hpos hclock hk
  obtain ⟨d₁, left, ch₁, hleft, hcuts₁, h₁, hlast, hlst⟩ :=
    h.resolveLeft hH (o := it.origin) fun o ho => ⟨hdeps (.origin (hO ho)),
      (hH.origin_low hmem (hO ho)).elim id fun hx => hx ▸ not_low_id hf.toFits hpos⟩
  obtain ⟨d₂, right, ch₂, hright, hcuts₂, h₂, hid, hrst, hframe⟩ :=
    h₁.resolveRight hH (r := it.rightOrigin) fun r hr => ⟨hcuts₁.has.2 (hdeps (.right (hR hr))),
      hH.right_low hmem (hR hr)⟩
  have hcuts := hcuts₁.trans hcuts₂
  -- the item on the left is not cut again to find the right neighbour
  have hll : ∀ l, left = some l → d₂.Stored l ∧ H.list l.id = H.list it.id := by
    rintro l rfl
    have hl := hlst l rfl
    have ho : it.origin = some l.lastID := hlast.symm
    have hlist : H.list l.id = H.list it.id := by
      rw [← h₁.list_lastID hH hl]
      exact hH.origin_list hmem (hO ho)
    exact ⟨hframe l hl fun r hr => h₁.right_not_mem_left hl hlist (hs _ _ (hO ho) (hR hr)), hlist⟩
  have hrr : ∀ q, right = some q → d₂.Stored q ∧ H.list q.id = H.list it.id := by
    rintro q rfl
    exact ⟨hrst q rfl, hH.right_list hmem (hR hid.symm)⟩
  have hfields : { it with origin := left.map Item.lastID } = it := by rw [hlast]
  obtain ⟨sub, name, hpar, hkey⟩ := h₂.resolveParent hH hf hpos
    (fun hd => hcuts.has.2 (hdeps hd)) hll hrr
    fun hl hr => by
      subst hl hr
      exact ⟨hlast.symm, hid.symm⟩
  refine ⟨d₂, _, left.map Item.id, right.map Item.id, ch₂, sub, name, ?_, hcuts, h₂, ?_, rfl⟩
  · unfold Doc.resolve
    rw [if_neg (by simp [hk.1, hk.2.1, hk.2.2]), hleft]
    simp only [hfields, hright, hpar]
  · refine ⟨⟨⟨hf.mem, hf.origin, hf.follows, hf.right, hf.low, hf.low_end, hf.type, hf.gone,
      hf.entry⟩, hpos, rfl, hkey⟩, ?_, hid, fun r hr => ?_⟩
    · cases left with
      | none => exact .inl ⟨hlast.symm, rfl⟩
      | some l => exact .inr ⟨l, (hll l rfl).1, rfl, hlast.symm⟩
    · cases right with
      | none => simp [← hid] at hr
      | some q => exact ⟨q, (hrr q rfl).1, by simpa [← hid] using hr⟩

/-! ### Dropping what is known -/

theorem not_low_state (h : Rep H d w ch) {c : ℕ} (hpos : 0 < d.state c) :
    ¬H.low ⟨c, d.state c⟩ := by
  obtain ⟨l, hl, hx⟩ := h.exists_stored (x := ⟨c, d.state c - 1⟩) (by
    unfold Doc.Has
    simp only
    omega)
  obtain ⟨hc, hlo, hhi⟩ := Item.mem_units.1 hx
  have hlast := hl.has h.gapless (Item.lastID_mem_units (h.fits hl).pos)
  have hend : l.unit l.len = ⟨c, d.state c⟩ := by
    unfold Doc.Has Item.lastID at hlast
    simp only at hc hlo hhi hlast
    refine ID.ext hc.symm ?_
    simp only [Item.unit]
    rw [← hc] at hlast
    omega
  rw [← hend]
  exact (h.fits hl).low_end (h.fits hl).pos

theorem trim (h : Rep H d w ch) (hH : H.Lawful) {left right : Option ID}
    (hr : Resolved H d it left right) {offset : ℕ} (hoff : offset < it.len)
    (hstate : d.state it.id.client = it.id.clock + offset) :
    ∃ d' it' left' ch', d.trim it left offset = (d', some (it', left')) ∧ Doc.Cuts d d' ∧
      Rep H d' w ch' ∧ Resolved H d' it' left' right ∧ it.Piece it' ∧ it'.id = it.unit offset ∧
      it'.len = it.len - offset := by
  unfold Doc.trim
  split
  next h0 =>
    subst h0
    exact ⟨d, it, left, ch, rfl, .refl h.gapless, h, hr, .refl, rfl, rfl⟩
  next h0 =>
    have hlow : ¬H.low (it.unit offset) := by
      have := h.not_low_state (c := it.id.client) (by omega)
      rwa [hstate] at this
    have hnext : ID.next ⟨it.id.client, it.id.clock + offset - 1⟩ = it.unit offset :=
      ID.ext rfl (by simp [ID.next, Item.unit]; omega)
    obtain ⟨d', l, ch', hclean, hrep⟩ :=
      h.cleanEnd hH (x := ⟨it.id.client, it.id.clock + offset - 1⟩)
        (by unfold Doc.Has; simp only; omega) (hnext ▸ hlow)
    obtain ⟨hc, hlast⟩ := Doc.cleanEnd_ok h.gapless hclean
    obtain ⟨hd, tl, hsplice, hcut⟩ := hr.fits.splice (Nat.pos_of_ne_zero h0) hoff hlow
    refine ⟨d', it.tail offset tl, some l.id, ch', ?_, hc.cuts, hrep, ⟨?_, ?_, hr.right, ?_⟩,
      Item.Piece.refl.tail hsplice (Nat.pos_of_ne_zero h0) hoff, rfl, Item.len_tail hcut⟩
    · simp [hclean, hsplice, Item.tail, hlast]
    · exact hr.fits.tail hH hcut (Nat.pos_of_ne_zero h0) hoff
    · exact .inr ⟨l, hc.stored, rfl, by rw [hlast]; rfl⟩
    · intro r hr'
      obtain ⟨q, hq, rfl⟩ := hr.start r hr'
      obtain ⟨st, hst, hid⟩ := hc.cuts.starts _ _ hq
      obtain ⟨q', rfl, -⟩ := hrep.items _ _ hst
      exact ⟨q', .of_mem hrep.gapless hst, hid⟩

/-! ### Finding the place -/

section Place

variable {left right : Option ID} {P C : List Item}

/-- The left neighbour cuts the list of the item where the origin cuts its units. -/
theorem cut_left (h : Rep H d w ch) (hH : H.Lawful) (hr : Resolved H d it left right) :
    ∃ P C, ch (H.list it.id) = P ++ C ∧ left = (P.map Item.id).getLast? ∧
      cut (allUnits (P ++ C)) (H.origin it.id) = (allUnits P, allUnits C) ∧
      ∀ y ∈ allUnits C, H.origin it.id ≠ some y := by
  have hmem : H.mem it.id := hr.fits.mem 0 hr.fits.pos
  have horigin := hr.fits.origin hr.fits.pos
  rcases hr.left with ⟨ho, rfl⟩ | ⟨l, hl, rfl, ho⟩
  · refine ⟨[], ch (H.list it.id), rfl, rfl, by simp [horigin, ho, cut], fun y _ => ?_⟩
    simp [horigin, ho]
  · have hlist : H.list l.id = H.list it.id := by
      rw [← h.list_lastID hH hl]
      exact hH.origin_list hmem (horigin.trans ho)
    obtain ⟨A, C, hAC⟩ := List.append_of_mem ((h.stored (H.list it.id) l).2 ⟨hl, hlist⟩)
    obtain ⟨ys, hys⟩ := Item.units_eq_append (h.fits hl).pos
    have hnd := h.nodup_units (H.list it.id)
    have hsplit : allUnits (ch (H.list it.id)) = (allUnits A ++ ys) ++ l.lastID :: allUnits C := by
      simp [hAC, allUnits, hys]
    rw [hsplit, List.nodup_middle, List.nodup_cons] at hnd
    have hP : allUnits (A ++ [l]) = (allUnits A ++ ys) ++ [l.lastID] := by simp [allUnits, hys]
    refine ⟨A ++ [l], C, by simp [hAC], by simp, ?_, fun y hy heq => ?_⟩
    · rw [show A ++ [l] ++ C = ch (H.list it.id) by simp [hAC], hsplit, horigin, ho, hP]
      exact cut_some fun hm => hnd.1 (List.mem_append_left _ hm)
    · rw [horigin, ho] at heq
      exact hnd.1 (List.mem_append_right _ (Option.some.inj heq ▸ hy))

/-- Without a conflict the item goes right after its left neighbour: the scan stops at once. -/
theorem scan_of_not_conflicts (h : Rep H d w ch) (hH : H.Lawful) (hr : Resolved H d it left right)
    (hPC : ch (H.list it.id) = P ++ C) (hleft : left = (P.map Item.id).getLast?)
    (hc : d.conflicts left right = false) :
    H.ops.scan it.id [] [] (allUnits C) = ([], allUnits C) := by
  have hmem : H.mem it.id := hr.fits.mem 0 hr.fits.pos
  have hright := hr.fits.right 0 hr.fits.pos
  have hafter := h.after_eq hPC
  rw [← hleft] at hafter
  -- the right neighbour is what follows
  have hhead : (C.map Item.id).head? = it.rightOrigin := by
    cases left with
    | some l =>
      rw [← hafter, ← hr.right]
      simpa [Doc.conflicts, Doc.after] using hc
    | none =>
      obtain rfl : P = [] := by simpa using hleft.symm
      cases hr' : right with
      | none => simp [Doc.conflicts, hr'] at hc
      | some r =>
        have hro : it.rightOrigin = some r := hr.right.symm.trans hr'
        obtain ⟨q, hq, rfl⟩ := hr.start r hro
        have hlist := hH.right_list hmem (hright.trans hro)
        obtain ⟨A, B, hAB⟩ := List.append_of_mem ((h.stored (H.list it.id) q).2 ⟨hq, hlist⟩)
        have hlink := h.linked (H.list it.id)
        rw [hAB, List.map_append, List.map_cons] at hlink
        have hA : A = [] := by simpa [Doc.conflicts, hr', hlink.left_eq] using hc
        rw [List.nil_append] at hPC
        rw [← hPC, hAB, hro, hA]
        rfl
  cases C with
  | nil => rfl
  | cons c C =>
    have hst := ((h.stored (H.list it.id) c).1 (hPC ▸ by simp)).1
    obtain ⟨ys, hunits, -⟩ := (h.fits hst).follows_units (h.fits hst).pos
    have hx : H.ops.right it.id = some c.id := hright.trans hhead.symm
    rw [show allUnits (c :: C) = c.id :: (ys ++ allUnits C) by simp [allUnits, hunits], scan,
      if_pos hx, List.nil_append]

/-- The place the document chooses is the one where the first unit belongs. -/
theorem place (h : Rep H d w ch) (hH : H.Lawful) (hr : Resolved H d it left right) :
    ∃ P Q, ch (H.list it.id) = P ++ Q ∧
      (if d.conflicts left right then
        d.resolveConflict it (H.list it.id).parent left right else left) =
        (P.map Item.id).getLast? ∧
      H.ops.insert (allUnits (P ++ Q)) it.id = allUnits P ++ it.id :: allUnits Q := by
  obtain ⟨P, C, hPC, hleft, hcut, horigin⟩ := h.cut_left hH hr
  have hinsert : ∀ R Q, R ++ Q = C → H.ops.scan it.id [] [] (allUnits C) = (allUnits R, allUnits Q) →
      H.ops.insert (allUnits ((P ++ R) ++ Q)) it.id =
        allUnits (P ++ R) ++ it.id :: allUnits Q := by
    rintro R Q rfl hscan
    rw [List.append_assoc, Ops.insert, show H.ops.origin it.id = H.origin it.id from rfl, hcut]
    simp only [hscan]
    rw [allUnits_append]
  by_cases hc : d.conflicts left right = true
  · have hs : Scanning H d ch it [] [] C := ⟨hr.fits, ⟨P, hPC⟩, horigin, hr.start⟩
    have hlen : C.length < d.size + 1 := by
      have := h.length_le_size (H.list it.id)
      rw [hPC, List.length_append] at this
      omega
    obtain ⟨R, Q, hRQ, hlast, hscan⟩ :=
      h.conflictLoop_spec hH (d.size + 1) [] [] left [] [] hs hlen (by simp) (by simp)
    obtain rfl : R ++ Q = C := hRQ
    refine ⟨P ++ R, Q, by simp [hPC], ?_, hinsert R Q rfl hscan⟩
    rw [if_pos hc, Doc.resolveConflict, hr.fits.key, hr.right]
    rw [show (⟨(H.list it.id).parent, (H.list it.id).key⟩ : ListID) = H.list it.id from rfl, hleft,
      h.after_eq hPC, ← hleft]
    have hids : ((P ++ R).map Item.id).getLast? = ((R.map Item.id).getLast?).or left := by
      rw [List.map_append, List.getLast?_append, hleft]
    rw [hids]
    exact hlast
  · have hscan := h.scan_of_not_conflicts hH hr hPC hleft (by simpa using hc)
    refine ⟨P, C, hPC, by rw [if_neg hc, hleft], ?_⟩
    simpa using hinsert [] C rfl hscan

end Place

/-! ### Integrating -/

/-- What integrating `it` does to a document `d`: some items are cut (`d₁`), and what is new of
`it` (`it₁`) is linked between the parts `P` and `Q` of its list, where its first unit belongs. -/
structure Placed (H : Shape) (d : Doc) (w : List ID) (it : Item) (d₁ : Doc) (it₁ : Item)
    (ch₁ : ListID → List Item) (P Q : List Item) : Prop where
  cuts : Doc.Cuts d d₁
  rep : Rep H d₁ w ch₁
  next : Next H d₁ it₁
  refs : ∃ left right, Resolved H d₁ it₁ left right
  chain : ch₁ (H.list it₁.id) = P ++ Q
  insert : H.ops.insert (allUnits (P ++ Q)) it₁.id = allUnits P ++ it₁.id :: allUnits Q
  id : it₁.id = ⟨it.id.client, d.state it.id.client⟩
  endClock : it₁.id.clock + it₁.len = it.id.clock + it.len

theorem integrateItem (h : Rep H d w ch) (hH : H.Lawful) (hf : H.FitsWire it) (hk : d.Known it)
    (hs : Straddles H w it.id) (hclock : it.id.clock ≤ d.state it.id.client)
    (hend : d.state it.id.client < it.id.clock + it.len) :
    ∃ d' it' left right d₁ it₁ ch₁ P Q, d.resolve it = some (d', it', left, right) ∧
      d'.integrateItem it' left right (d.state it.id.client - it.id.clock) =
        d₁.link it₁ (H.list it₁.id).parent ((P.map Item.id).getLast?) ∧
      Placed H d w it d₁ it₁ ch₁ P Q := by
  have hpos : 0 < it.len := by omega
  obtain ⟨d', it', left, right, ch', sub, name, hres, hcuts, h', hr, hit'⟩ :=
    h.resolve hH hf hpos hclock hk hs
  obtain ⟨k, hk'⟩ := Nat.exists_eq_add_of_le hclock
  have hid' : it'.id = it.id := by rw [hit']
  have hlen' : it'.len = it.len := by rw [hit']; rfl
  have hoff : k < it'.len := by omega
  have hstate : d'.state it'.id.client = it'.id.clock + k := by rw [hid', hcuts.state, hk']
  obtain ⟨d₁, it₁, left₁, ch₁, htrim, hcuts₁, h₁, hr₁, hpiece, hid, hlen⟩ :=
    h'.trim hH hr hoff hstate
  obtain ⟨P, Q, hPQ, hlast, hins⟩ := h₁.place hH hr₁
  have hid₁ : it₁.id = ⟨it.id.client, it.id.clock + k⟩ := by rw [hid, Item.unit, hid']
  have hcuts' := hcuts.trans hcuts₁
  refine ⟨d', it', left, right, d₁, it₁, ch₁, P, Q, hres, ?_, hcuts', h₁,
    ⟨hr₁.fits, ?_, fun {y} hd => hcuts'.has.2 ?_⟩, ⟨left₁, right, hr₁⟩, hPQ, hins, ?_, ?_⟩
  · unfold Doc.integrateItem
    rw [hk', Nat.add_sub_cancel_left, htrim]
    simp only [hr₁.fits.parent, hlast]
  · rw [hcuts'.state, hid₁, hk']
  · -- the first new unit depends on what the item does, and on units that are known
    rw [hid₁] at hd
    rcases hf.dep_cases hH (i := k) (by omega) hd with hd | ⟨j, hj, rfl⟩
    · exact h.deps hH hf hpos hclock hk hd
    · unfold Doc.Has Item.unit
      simp only
      omega
  · rw [hid₁, hk']
  · rw [hid₁, hlen, hlen']
    simp only
    omega

theorem Placed.rep' {d₁ : Doc} {it₁ : Item} {ch₁ : ListID → List Item} {P Q : List Item}
    (hp : Placed H d w it d₁ it₁ ch₁ P Q) (hH : H.Lawful) :
    Rep H (d₁.link it₁ (H.list it₁.id).parent ((P.map Item.id).getLast?)) (w ++ it₁.units)
      (Function.update ch₁ (H.list it₁.id) (P ++ it₁ :: Q)) :=
  hp.rep.link hH hp.next hp.chain hp.insert

end Rep

end YCollab.Crdt
