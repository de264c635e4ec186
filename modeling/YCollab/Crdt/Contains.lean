import YCollab.Crdt.Views
import YCollab.Crdt.Wire
import YCollab.Lib0.Canonical

/-!
# What a document contains

A document contains another one if it has all its clocks, holds the content of all its units, and
has deleted all that is deleted in it (`Doc.Contains`). Numbers are compared as they are read back from
the wire (`ContentUnit.wired`).

Whatever a document receives, it contains what it was before (`Doc.Regular.contains_receive`): cuts and
deletions keep the content of every unit, and a turn only adds a struct.
-/

namespace YCollab.Crdt

open Lib0

/-- The unit as it is read back from the wire. -/
def ContentUnit.wired : ContentUnit → ContentUnit
  | .any v => .any (v.norm (maxAnyDepth + 1))
  | .whole c => .whole c.wired
  | v => v

theorem Content.wired_wired (c : Content) : c.wired.wired = c.wired := by
  cases c with
  | any values => simp only [wired, List.map_map, Function.comp_def, Any.norm_norm]
  | doc guid opts => simp only [wired, Any.norm_norm]
  | _ => rfl

theorem ContentUnit.wired_wired (v : ContentUnit) : v.wired.wired = v.wired := by
  cases v with
  | any v => simp only [wired, Any.norm_norm]
  | whole c => simp only [wired, Content.wired_wired]
  | _ => rfl

theorem Content.unitList_wired (c : Content) :
    c.wired.unitList = c.unitList.map ContentUnit.wired := by
  cases c with
  | deleted n => simp [wired, unitList, ContentUnit.wired]
  | json values => simp [wired, unitList, ContentUnit.wired]
  | any values => simp [wired, unitList, ContentUnit.wired]
  | string s =>
    have hcode : ∀ v ∈ (runes s).flatMap codeUnits, v.wired = v := by
      intro v hv
      obtain ⟨r, -, hv⟩ := List.mem_flatMap.1 hv
      unfold codeUnits at hv
      split at hv <;> simp only [List.mem_cons, List.not_mem_nil, or_false] at hv
      · rcases hv with rfl | rfl <;> rfl
      · rw [hv]
        rfl
    simp only [wired, unitList]
    exact ((List.map_congr_left hcode).trans (List.map_id' _)).symm
  | _ => rfl

/-- A unit of a piece has the content it has in the item. -/
theorem Item.Piece.unitList_eq {it p : Item} (hp : it.Piece p) {x : ID} (hx : x ∈ p.units) :
    p.content.unitList[x.clock - p.id.clock]? = it.content.unitList[x.clock - it.id.clock]? := by
  induction hp with
  | refl => rfl
  | @head p h t k _ hs h0 hk ih =>
    have hcut := Content.splice_cut hs hk.le
    obtain ⟨hc, hlo, hhi⟩ := mem_units.1 hx
    rw [len_head hcut] at hhi
    rw [← ih (mem_units.2 ⟨hc, hlo, by simp only [head_id] at hhi; omega⟩),
      Content.unitList_splice hs hk.le, List.getElem?_append_left]
    · rfl
    · rw [Content.length_unitList]
      have hlen : h.len = k := len_head hcut
      simp only [head_id] at hhi
      omega
  | @tail p h t k _ hs h0 hk ih =>
    have hcut := Content.splice_cut hs hk.le
    obtain ⟨hc, hlo, hhi⟩ := mem_units.1 hx
    rw [len_tail hcut] at hhi
    have hlen : (p.head h).len = k := len_head hcut
    change h.len = k at hlen
    simp only [tail_id, unit] at hc hlo hhi
    rw [← ih (mem_units.2 ⟨hc, by omega, by omega⟩), Content.unitList_splice hs hk.le,
      List.getElem?_append_right (by rw [Content.length_unitList]; omega), Content.length_unitList,
      hlen]
    simp only [tail_id, unit]
    congr 1
    omega

namespace Doc

variable {d d' d'' : Doc} {it : Item} {x : ID} {v : ContentUnit} {st : Struct} {l : List Struct}
  {u : Update}

/-- The content of a unit; nothing if the unit has not been received, or only its clock. -/
def unitAt (d : Doc) (x : ID) : Option ContentUnit :=
  (d.itemAt x).bind fun it => it.content.unitList[x.clock - it.id.clock]?

theorem unitAt_eq_some (hg : d.store.Gapless) : d.unitAt x = some v ↔
    ∃ it, d.Stored it ∧ x ∈ it.units ∧
      it.content.unitList[x.clock - it.id.clock]? = some v := by
  unfold unitAt
  rw [Option.bind_eq_some_iff]
  constructor
  · rintro ⟨it, hit, hv⟩
    obtain ⟨hst, hx⟩ := stored_of_itemAt hg hit
    exact ⟨it, hst, hx, hv⟩
  · rintro ⟨it, hst, hx, hv⟩
    exact ⟨it, hst.itemAt hg hx, hv⟩

theorem unitAt_of_not_has (hg : d.store.Gapless) (hx : ¬d.Has x) : d.unitAt x = none := by
  refine Option.eq_none_iff_forall_ne_some.2 fun v hv => hx ?_
  obtain ⟨c, hst, hxc, -⟩ := (unitAt_eq_some hg).1 hv
  exact hst.has hg hxc

theorem unitAt_of_gc (hg : d.store.Gapless) {id : ID} {n : ℕ}
    (hgc : .gc id n ∈ d.store.structs x.client) (hlo : id.clock ≤ x.clock)
    (hhi : x.clock < id.clock + n) : d.unitAt x = none := by
  refine Option.eq_none_iff_forall_ne_some.2 fun v hv => ?_
  obtain ⟨c, hst, hxc, -⟩ := (unitAt_eq_some hg).1 hv
  obtain ⟨hcl, hlo', hhi'⟩ := Item.mem_units.1 hxc
  have hst' : .item c ∈ d.store.structs x.client := hcl ▸ hst
  cases (hg.run x.client).cover_unique hgc hst' hlo hhi hlo' hhi'

/-- `d'` contains `d`: its clocks, the content of its units, and its deletions. -/
structure Contains (d' d : Doc) : Prop where
  state : ∀ c, d.state c ≤ d'.state c
  content : ∀ x v, d.unitAt x = some v → ∃ v', d'.unitAt x = some v' ∧ v'.wired = v.wired
  gone : ∀ x, d.Gone x → d'.Gone x

theorem Contains.refl (d : Doc) : d.Contains d where
  state _ := le_rfl
  content _ v hv := ⟨v, hv, rfl⟩
  gone _ hx := hx

theorem Contains.trans (h : d''.Contains d') (h' : d'.Contains d) : d''.Contains d where
  state c := (h'.state c).trans (h.state c)
  content x v hv := by
    obtain ⟨v', hv', heq'⟩ := h'.content x v hv
    obtain ⟨v'', hv'', heq''⟩ := h.content x v' hv'
    exact ⟨v'', hv'', heq''.trans heq'⟩
  gone x hx := h.gone x (h'.gone x hx)

/-! ### Edits -/

/-- A unit of a stored item stays in an item: cuts and deletions make no GC. -/
theorem Marks.exists_piece (hm : Marks d d') (hg : d.store.Gapless) (hst : d.Stored it)
    (hx : x ∈ it.units) : ∃ it', d'.Stored it' ∧ x ∈ it'.units ∧ it.Piece it' := by
  obtain ⟨hc, hlo, hhi⟩ := Item.mem_units.1 hx
  have hhas : x.clock < d'.state x.client := (hst.has hg hx).trans_eq (hm.state x.client).symm
  obtain ⟨A, st, B, hs, hlo', hhi'⟩ := hm.gapless.exists_cover hhas
  have hmem : st ∈ d'.store.structs x.client := by simp [hs]
  cases st with
  | skip id n =>
    have hskip := (hs ▸ hm.gapless.run x.client).split.2.2.2.1
    cases hskip
  | gc id n =>
    -- a GC was one before, and nothing else covers its clocks
    have hgc := (hm.gcs _ _ _).1 hmem
    have hitem : .item it ∈ d.store.structs x.client := by
      rw [hc]
      exact hst
    have heq := (hg.run x.client).cover_unique hgc hitem hlo' hhi' hlo hhi
    cases heq
  | item it' =>
    have hst' : d'.Stored it' := .of_mem hm.gapless hmem
    have hx' : x ∈ it'.units :=
      Item.mem_units.2 ⟨(hm.gapless.client_eq hmem).symm, hlo', hhi'⟩
    obtain ⟨it₀, hst₀, hp⟩ := hm.pieces it' hst'
    obtain rfl := hst₀.unique hst hg (hp.low hx').1 hx
    exact ⟨it', hst', hx', hp⟩

theorem Marks.unitAt (hm : Marks d d') (hg : d.store.Gapless) (x : ID) :
    d'.unitAt x = d.unitAt x := by
  ext v
  rw [unitAt_eq_some hm.gapless, unitAt_eq_some hg]
  constructor
  · rintro ⟨it', hst', hx', hv⟩
    obtain ⟨it, hst, hp⟩ := hm.pieces it' hst'
    exact ⟨it, hst, (hp.low hx').1, (hp.unitList_eq hx').symm.trans hv⟩
  · rintro ⟨it, hst, hx, hv⟩
    obtain ⟨it', hst', hx', hp⟩ := hm.exists_piece hg hst hx
    exact ⟨it', hst', hx', (hp.unitList_eq hx').trans hv⟩

theorem Marks.lowAt_iff (hm : Marks d d') (hg : d.store.Gapless) : d'.LowAt x ↔ d.LowAt x := by
  refine ⟨not_imp_not.1 hm.lowAt, ?_⟩
  rintro ⟨it, hst, hx, hlow⟩
  obtain ⟨it', hst', hx', hp⟩ := hm.exists_piece hg hst hx
  exact ⟨it', hst', hx', (hp.low hx').2.trans hlow⟩

theorem Marks.contains (hm : Marks d d') (hg : d.store.Gapless) : d'.Contains d where
  state c := (hm.state c).ge
  content x v hv := ⟨v, (hm.unitAt hg x).trans hv, rfl⟩
  gone := hm.gone

/-! ### Turns -/

theorem structs_subset_append {s : Struct} (hs : d.state s.id.client = s.id.clock)
    (hstore : d'.store = d.store.append s) (c : ℕ) (hm : st ∈ d.store.structs c) :
    st ∈ d'.store.structs c := by
  rw [hstore, StructStore.structs_append hs]
  split
  next heq => exact List.mem_append_left _ (heq ▸ hm)
  next => exact hm

theorem unitAt_append {s : Struct} (hg : d.store.Gapless) (hpos : 0 < s.len)
    (hskip : s.isSkip = false) (hs : d.state s.id.client = s.id.clock)
    (hstore : d'.store = d.store.append s) (hx : d.Has x) : d'.unitAt x = d.unitAt x := by
  have hg' : d'.store.Gapless := hstore ▸ hg.append hpos hskip
  have hsub : ∀ {it}, d.Stored it → d'.Stored it := fun hst => structs_subset_append hs hstore _ hst
  ext v
  rw [unitAt_eq_some hg', unitAt_eq_some hg]
  constructor
  · rintro ⟨it', hst', hx', hv⟩
    obtain ⟨A, st, B, hcover, hlo, hhi⟩ := hg.exists_cover hx
    have hmem : st ∈ d.store.structs x.client := by simp [hcover]
    obtain ⟨hcl, hlo', hhi'⟩ := Item.mem_units.1 hx'
    -- the struct that was there is the one that covers the unit
    have heq : st = .item it' := (hg'.run x.client).cover_unique
      (structs_subset_append hs hstore _ hmem) (hcl ▸ hst') hlo hhi hlo' hhi'
    exact ⟨it', .of_mem hg (heq ▸ hmem), hx', hv⟩
  · rintro ⟨it, hst, hx, hv⟩
    exact ⟨it, hsub hst, hx, hv⟩

theorem contains_append {s : Struct} (hg : d.store.Gapless) (hpos : 0 < s.len)
    (hskip : s.isSkip = false) (hs : d.state s.id.client = s.id.clock)
    (hstore : d'.store = d.store.append s)
    (hdel : ∀ it, d.Stored it → d.deleted it.id = true → d'.deleted it.id = true) :
    d'.Contains d where
  state c := by
    rw [state, state, hstore]
    exact (Cuts.refl hg).state_append_le hpos hskip hs c
  content x v hv := by
    obtain ⟨it, hst, hx, -⟩ := (unitAt_eq_some hg).1 hv
    exact ⟨v, (unitAt_append hg hpos hskip hs hstore (hst.has hg hx)).trans hv, rfl⟩
  gone x hx := by
    obtain ⟨st, hst, hlo, hhi, hgone⟩ := hx
    refine ⟨st, structs_subset_append hs hstore _ hst, hlo, hhi, ?_⟩
    cases st with
    | item it => exact hdel it (.of_mem hg hst) hgone
    | gc id n => rfl
    | skip id n => cases hgone

theorem deleted_link {p : TypeID} {left : Option ID} {y : ID} (hy : y ≠ it.id)
    (h : d.deleted y = true) : (d.link it p left).deleted y = true := by
  rw [link_deleted d it p left hy, relink_deleted]
  split
  · rfl
  · exact h

theorem Turn.contains (h : Turn d st d') (hg : d.store.Gapless) : d'.Contains d := by
  cases h with
  | skip => exact .refl d
  | known => exact .refl d
  | gc h1 h2 =>
    refine contains_append hg ?_ rfl rfl rfl fun _ _ h => h
    rw [Struct.len_gc]
    omega
  | dropped _ hc _ => exact hc.marks.contains hg
  | @tombstone it it₁ d₁ hn =>
    have hnew : Contains { d₁ with store := d₁.store.append (.gc it₁.id it₁.len) } d₁ :=
      contains_append (s := .gc it₁.id it₁.len) hn.cuts.gapless hn.pos rfl hn.state_eq rfl
        fun _ _ h => h
    exact hnew.trans (hn.cuts.marks.contains hg)
  | @link it it₁ d₁ p left hn =>
    refine (contains_append (s := .item it₁) hn.cuts.gapless hn.pos rfl hn.state_eq
      (link_store ..) fun it' hst' hdel => deleted_link ?_ hdel).trans (hn.cuts.marks.contains hg)
    -- the new item is none of those in the store
    rintro heq
    have hhas := hst'.has hn.cuts.gapless (hst'.id_mem_units hn.cuts.gapless)
    rw [heq] at hhas
    exact absurd hhas (Nat.not_lt.2 hn.state_eq.le)

theorem contains_of_store (hstore : d'.store = d.store) (hdel : d'.deleted = d.deleted) :
    d'.Contains d where
  state c := by rw [state, state, hstore]
  content x v hv := by
    refine ⟨v, ?_, rfl⟩
    rwa [unitAt, itemAt, hstore]
  gone x hx := by
    obtain ⟨st, hst, hlo, hhi, hgone⟩ := hx
    refine ⟨st, hstore ▸ hst, hlo, hhi, ?_⟩
    cases st with
    | item it =>
      rw [structDeleted, hdel]
      exact hgone
    | gc id n => rfl
    | skip id n => cases hgone

theorem Turns.contains (h : Turns d l d') (hg : d.store.Gapless) : d'.Contains d := by
  refine (h.invariant (P := fun e => e.Contains d) hg (fun e p he => ?_)
    (fun _ _ _ _ hg he hst => ((turn_of_integrateHead hg hst).contains hg).trans he) (.refl d)).2
  have hhold : Contains { e with pending := p } e := contains_of_store rfl rfl
  exact hhold.trans he

/-! ### Updates -/

theorem Phases.contains_marked {l' : List Struct} (h : Phases d u l l')
    (hg : (d.integrate u).store.Gapless) : (d.applyDecodedUpdate u).Contains (d.marked u) := by
  have hm := h.marked.edits.marks hg
  have hretried := h.turns.contains hm.gapless
  have hheld : Contains { d.retried u with pendingDeletes := SortedMap.empty } (d.retried u) :=
    contains_of_store rfl rfl
  exact (h.marks.contains h.gapless).trans (hheld.trans hretried)

/-- **A document contains what it was** before it received an update. -/
theorem Regular.contains_apply (h : d.Regular) (u : Update) :
    (d.applyDecodedUpdate u).Contains d := by
  obtain ⟨l, l', hp⟩ := h.phases u
  have hg₁ := hp.ran.turns.gapless h.gapless
  have hmarked : (d.marked u).Contains (d.integrate u) :=
    (hp.marked.edits.marks hg₁).contains hg₁
  exact (hp.contains_marked hg₁).trans (hmarked.trans (hp.ran.turns.contains h.gapless))

theorem Regular.contains_receive (h : d.Regular) (b : Bytes) : (d.receive b).Contains d := by
  unfold Doc.receive applyUpdate
  cases decodeUpdate b with
  | ok u => exact h.contains_apply u
  | error x => exact .refl d

theorem Regular.foldl_receive (h : d.Regular) (bs : List Bytes) :
    (bs.foldl Doc.receive d).Regular ∧ (bs.foldl Doc.receive d).Contains d := by
  induction bs generalizing d with
  | nil => exact ⟨h, .refl d⟩
  | cons b bs ih =>
    obtain ⟨hr, hc⟩ := ih (h.receive b)
    exact ⟨hr, hc.trans (h.contains_receive b)⟩

/-- **Nothing takes back what arrived**: whatever a document receives next, accepted or not, it keeps
its clocks, its content and its deletions. -/
theorem nothing_taken_back (bs more : List Bytes) :
    (replay (bs ++ more)).Contains (replay bs) := by
  rw [replay, List.foldl_append]
  exact ((replay_regular bs).foldl_receive more).2

end Doc

end YCollab.Crdt
