import Mathlib.Logic.Relation
import YCollab.Crdt.Splice
import YCollab.Crdt.Struct
import YCollab.Yata.Converge

/-!
# The shape of a history

An item is a run of clock units, and how the units are cut into items differs from one document to
the next. A `Shape` says of each unit what does not depend on the cuts: what it was inserted after
and before, the list it belongs to, and the few facts about its content that integration looks at.
An item *fits* a shape when its units are as the shape says (`Shape.Fits`); cutting an item in two
outside a surrogate pair gives two items that fit (`Shape.Fits.head`, `Shape.Fits.tail`).

`Shape.ops` are the insertions of the shape in the sense of `Yata.Ops`, and `Shape.Past` is the
dependency order that integration respects.
-/

namespace YCollab.Crdt

/-- The type that a parent on the wire names. -/
def ParentInfo.typeID : ParentInfo → TypeID
  | .root name => .root name
  | .item id => .nested id

/-- What a history says about each clock unit, whatever items it comes in. -/
structure Shape where
  /-- The units of the history. -/
  mem : ID → Prop
  /-- The left neighbour at insertion time. -/
  origin : ID → Option ID
  /-- The right neighbour at insertion time. -/
  right : ID → Option ID
  /-- The list the unit belongs to. -/
  list : ID → ListID
  /-- The unit is the low half of a surrogate pair: nothing may be cut before it. -/
  low : ID → Prop
  /-- The unit holds a nested type. -/
  type : ID → Prop
  /-- The unit was written as deleted content. -/
  gone : ID → Prop

namespace Shape

variable (H : Shape)

/-- The insertions of the history. -/
def ops : Yata.Ops ID ℕ := ⟨H.origin, H.right, ID.client⟩

/-- What has to be integrated before a unit. -/
inductive Dep : ID → ID → Prop
  | prev (c k : ℕ) : Dep ⟨c, k + 1⟩ ⟨c, k⟩
  | origin {x o : ID} : H.origin x = some o → Dep x o
  | right {x r : ID} : H.right x = some r → Dep x r
  | owner {x o : ID} : (H.list x).parent = .nested o → Dep x o

/-- Everything a unit depends on, directly or not. -/
def Past : ID → ID → Prop := Relation.TransGen H.Dep

/-- The units of one list. -/
def In (l : ListID) (x : ID) : Prop := H.mem x ∧ H.list x = l

/-- Neighbours are units of the same list that may be cut where they are needed, parents hold
types, and units were made in some order. -/
structure Lawful : Prop where
  dep_mem : ∀ {x y}, H.mem x → H.Dep x y → H.mem y
  origin_list : ∀ {x o}, H.mem x → H.origin x = some o → H.list o = H.list x
  origin_low : ∀ {x o}, H.mem x → H.origin x = some o → ¬H.low o.next ∨ o.next = x
  right_list : ∀ {x r}, H.mem x → H.right x = some r → H.list r = H.list x
  right_low : ∀ {x r}, H.mem x → H.right x = some r → ¬H.low r
  low_pos : ∀ {x}, H.low x → 0 < x.clock
  owner_type : ∀ {x o}, H.mem x → (H.list x).parent = .nested o → H.type o
  wf : ∃ time : ID → ℕ, ∀ {x y}, H.mem x → H.Dep x y → time y < time x

/-- The units of an item are as the shape says. -/
structure Fits (it : Item) : Prop where
  mem : ∀ i < it.len, H.mem (it.unit i)
  origin : 0 < it.len → H.origin it.id = it.origin
  follows : ∀ i, i + 1 < it.len → H.origin (it.unit (i + 1)) = some (it.unit i)
  right : ∀ i < it.len, H.right (it.unit i) = it.rightOrigin
  low : ∀ i < it.len, H.low (it.unit i) ↔ it.content.lowAt i = true
  low_end : 0 < it.len → ¬H.low (it.unit it.len)
  type : ∀ i < it.len, H.type (it.unit i) ↔ it.content.isType = true
  gone : ∀ i < it.len, H.gone (it.unit i) ↔ it.content.isDeleted = true
  entry : ∀ i < it.len, (H.list (it.unit i)).key ≠ none → it.len ≤ 1

/-- A decoded item that fits: it says which list it belongs to unless a neighbour does. -/
structure FitsWire (it : Item) : Prop extends H.Fits it where
  parent : ∀ p, it.wireParent = some p → 0 < it.len → H.list it.id = ⟨p.typeID, it.key⟩
  alone : it.origin = none → it.rightOrigin = none → it.wireParent ≠ none
  /-- The history has what precedes the item in its client's clock space. -/
  before : ∀ k < it.id.clock, H.mem ⟨it.id.client, k⟩

/-- An integrated item that fits: it hangs off its list. -/
structure FitsStored (it : Item) : Prop extends H.Fits it where
  pos : 0 < it.len
  parent : it.parent = some (H.list it.id).parent
  key : it.key = (H.list it.id).key

variable {H} {it : Item}

theorem Lawful.closed {x y : ID} (h : H.Lawful) (hx : H.mem x) (hxy : H.Past x y) : H.mem y := by
  induction hxy with
  | single hd => exact h.dep_mem hx hd
  | tail _ hd ih => exact h.dep_mem ih hd

theorem past_of_lt {c j k : ℕ} (h : j < k) : H.Past ⟨c, k⟩ ⟨c, j⟩ := by
  induction k with
  | zero => omega
  | succ k ih =>
    rcases Nat.lt_succ_iff_lt_or_eq.1 h with hlt | rfl
    · exact .head (.prev c k) (ih hlt)
    · exact .single (.prev c _)

theorem Lawful.ops (h : H.Lawful) (l : ListID) : H.ops.Lawful H.Past (H.In l) where
  origin hx ho := ⟨⟨h.dep_mem hx.1 (.origin ho), (h.origin_list hx.1 ho).trans hx.2⟩,
    .single (.origin ho)⟩
  right hx hr := ⟨⟨h.dep_mem hx.1 (.right hr), (h.right_list hx.1 hr).trans hx.2⟩,
    .single (.right hr)⟩
  client := by
    rintro ⟨c, k⟩ ⟨c', k'⟩ - - hc hne
    obtain rfl : c = c' := hc
    rcases Nat.lt_trichotomy k k' with hlt | rfl | hlt
    · exact .inr (past_of_lt hlt)
    · exact absurd rfl hne
    · exact .inl (past_of_lt hlt)

theorem Fits.list_eq (h : H.Fits it) (hH : H.Lawful) {i : ℕ} (hi : i < it.len) :
    H.list (it.unit i) = H.list it.id := by
  induction i with
  | zero => rfl
  | succ i ih =>
    rw [← ih (by omega)]
    exact (hH.origin_list (h.mem _ hi) (h.follows i hi)).symm

theorem Fits.dep_cases (h : H.Fits it) (hH : H.Lawful) {i : ℕ} (hi : i < it.len) {y : ID}
    (hd : H.Dep (it.unit i) y) : H.Dep it.id y ∨ ∃ j < i, y = it.unit j := by
  cases i with
  | zero => exact .inl hd
  | succ j =>
    have hlist := h.list_eq hH hi
    have hright := (h.right _ hi).trans (h.right 0 (by omega)).symm
    generalize hx : it.unit (j + 1) = x at hd hlist hright
    cases hd with
    | prev c k =>
      obtain ⟨rfl, hk⟩ := ID.mk.inj hx
      exact .inr ⟨j, Nat.lt_succ_self j, ID.ext rfl (by simp [Item.unit]; omega)⟩
    | origin ho =>
      rw [← hx, h.follows j hi] at ho
      exact .inr ⟨j, Nat.lt_succ_self j, (Option.some.inj ho).symm⟩
    | right hr => exact .inl (.right (hright ▸ hr))
    | owner ho => exact .inl (.owner (hlist ▸ ho))

theorem Lawful.time_lt {x y : ID} (h : H.Lawful) {time : ID → ℕ}
    (htime : ∀ {x y}, H.mem x → H.Dep x y → time y < time x) (hx : H.mem x) (hy : H.Past x y) :
    time y < time x := by
  induction hy with
  | single hd => exact htime hx hd
  | tail hp hd ih => exact (htime (h.closed hx hp) hd).trans ih

theorem Lawful.past_irrefl {x : ID} (h : H.Lawful) (hx : H.mem x) : ¬H.Past x x := by
  obtain ⟨time, htime⟩ := h.wf
  exact fun hp => lt_irrefl _ (h.time_lt htime hx hp)

theorem Fits.origin_not_mem {p : ID} (h : H.Fits it) (hH : H.Lawful)
    (hp : H.origin it.id = some p) : p ∉ it.units := by
  intro hm
  obtain ⟨hc, hlo, hhi⟩ := Item.mem_units.1 hm
  have hmem : H.mem it.id := h.mem 0 (by omega)
  obtain ⟨c, k⟩ := p
  obtain rfl : c = it.id.client := hc
  rcases hlo.lt_or_eq with hlt | heq
  · exact hH.past_irrefl hmem (.head (.origin hp) (past_of_lt hlt))
  · obtain rfl : it.id.clock = k := heq
    exact hH.past_irrefl hmem (.single (.origin hp))

/-! ### Cutting an item -/

section Cut

variable {h t : Content} {k : ℕ}

theorem Fits.head (hf : H.Fits it) (hc : it.content.Cut h t k) (hk : k ≤ it.len)
    (hlow : ¬H.low (it.unit k)) : H.Fits (it.head h) where
  mem i hi := hf.mem i (by rw [Item.len_head hc] at hi; omega)
  origin hpos := hf.origin (by rw [Item.len_head hc] at hpos; omega)
  follows i hi := hf.follows i (by rw [Item.len_head hc] at hi; omega)
  right i hi := hf.right i (by rw [Item.len_head hc] at hi; omega)
  low i hi := by
    rw [Item.len_head hc] at hi
    exact (hf.low i (by omega)).trans (by rw [← hc.low_head i hi]; rfl)
  low_end _ := by
    rw [Item.len_head hc]
    exact hlow
  type i hi := by
    rw [Item.len_head hc] at hi
    exact (hf.type i (by omega)).trans (by rw [← hc.type_head]; rfl)
  gone i hi := by
    rw [Item.len_head hc] at hi
    exact (hf.gone i (by omega)).trans (by rw [← hc.deleted_head]; rfl)
  entry i hi hkey := by
    rw [Item.len_head hc] at hi ⊢
    exact hk.trans (hf.entry i (by omega) hkey)

theorem Fits.tail (hf : H.Fits it) (hc : it.content.Cut h t k) (hpos : 0 < k) (hk : k < it.len) :
    H.Fits (it.tail k t) where
  mem i hi := by
    rw [Item.len_tail hc] at hi
    rw [Item.unit_tail]
    exact hf.mem _ (by omega)
  origin _ := by
    obtain ⟨j, rfl⟩ := Nat.exists_eq_add_of_lt hpos
    have := hf.follows j (by omega)
    simpa [Item.unit, Item.tail, Nat.add_assoc] using this
  follows i hi := by
    rw [Item.len_tail hc] at hi
    rw [Item.unit_tail, Item.unit_tail, ← Nat.add_assoc]
    exact hf.follows _ (by omega)
  right i hi := by
    rw [Item.len_tail hc] at hi
    rw [Item.unit_tail]
    exact hf.right _ (by omega)
  low i hi := by
    rw [Item.len_tail hc] at hi
    rw [Item.unit_tail]
    exact (hf.low _ (by omega)).trans (by rw [← hc.low_tail]; rfl)
  low_end _ := by
    rw [Item.len_tail hc, Item.unit_tail, Nat.add_sub_cancel' hk.le]
    exact hf.low_end (by omega)
  type i hi := by
    rw [Item.len_tail hc] at hi
    rw [Item.unit_tail]
    exact (hf.type _ (by omega)).trans (by rw [← hc.type_tail]; rfl)
  gone i hi := by
    rw [Item.len_tail hc] at hi
    rw [Item.unit_tail]
    exact (hf.gone _ (by omega)).trans (by rw [← hc.deleted_tail]; rfl)
  entry i hi hkey := by
    rw [Item.len_tail hc] at hi ⊢
    rw [Item.unit_tail] at hkey
    have := hf.entry _ (by omega) hkey
    omega

theorem FitsStored.head (hf : H.FitsStored it) (hc : it.content.Cut h t k) (hpos : 0 < k)
    (hk : k ≤ it.len) (hlow : ¬H.low (it.unit k)) : H.FitsStored (it.head h) where
  toFits := hf.toFits.head hc hk hlow
  pos := by rwa [Item.len_head hc]
  parent := hf.parent
  key := hf.key

theorem FitsStored.tail (hf : H.FitsStored it) (hH : H.Lawful) (hc : it.content.Cut h t k)
    (hpos : 0 < k) (hk : k < it.len) : H.FitsStored (it.tail k t) where
  toFits := hf.toFits.tail hc hpos hk
  pos := by
    rw [Item.len_tail hc]
    omega
  parent := hf.parent.trans (by rw [← hf.list_eq hH hk]; rfl)
  key := hf.key.trans (by rw [← hf.list_eq hH hk]; rfl)

theorem Fits.splice (hf : H.Fits it) (hpos : 0 < k) (hk : k < it.len) (hlow : ¬H.low (it.unit k)) :
    ∃ h t, it.content.splice k = .ok (h, t) ∧ it.content.Cut h t k := by
  have hlow' : it.content.lowAt k = false :=
    Bool.eq_false_iff.2 fun hl => hlow ((hf.low k hk).2 hl)
  obtain ⟨h, t, hs⟩ := Content.splice_isOk hpos hk hlow'
  exact ⟨h, t, hs, Content.splice_cut hs hk.le⟩

end Cut

end Shape

end YCollab.Crdt
