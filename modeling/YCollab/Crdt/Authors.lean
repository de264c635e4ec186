import YCollab.Crdt.History
import YCollab.Crdt.Told

/-!
# From authors to shapes

A well-formed history has a shape (`History.shape`): what its updates say of each clock unit, on
which they agree. The shape is grounded (`WellFormed.exists_shape`). The proof follows the order in
which the units were made: what an author inserted had its neighbours in the author's own document,
and that document represents units that were made before.
-/

namespace YCollab.Crdt

open Lib0 Yata Yata.Ops

variable {hist : List Bytes} {time : ID → ℕ} {it it' : Item} {x y : ID} {i j n : ℕ}

/-! ### Replaying updates of a shape -/

/-- The units that some updates carry. -/
def CarriedBy (bs : List Bytes) (x : ID) : Prop :=
  ∃ b ∈ bs, ∃ u, decodeUpdate b = .ok u ∧ u.Units x

/-- The units that the delete sets of some updates name. -/
def NamedBy (bs : List Bytes) (x : ID) : Prop :=
  ∃ b ∈ bs, ∃ u, decodeUpdate b = .ok u ∧ u.deletes.Names x

theorem Told.empty (H : Shape) : Told H (fun _ => False) Doc.empty [] where
  sound := {
    rep := ⟨fun _ => [], {
      gapless := .empty
      items := fun _ _ h => by cases h
      causal := .nil
      mem := fun x => iff_of_false List.not_mem_nil (Nat.not_lt_zero _)
      nodup := by simp
      linked := fun _ => .nil
      head := fun _ _ => rfl
      last := fun _ _ _ => rfl
      stored := fun l it => by simp [Doc.Stored, Doc.empty, StructStore.structs]
      flat := fun _ => rfl }⟩
    content := fun hx => absurd hx (Nat.not_lt_zero _)
    entry := fun ⟨_, y, hy⟩ => by simp [insertAll] at hy }
  has hx := absurd hx (Nat.not_lt_zero _)
  items := by simp [Doc.empty, heldStructs]
  told h := h.elim
  kept := by simp [Doc.empty]
  contig := by simp [Doc.empty, Doc.AllBlocks]
  built := .empty

theorem Named.empty (H : Shape) : Named H (fun _ => False) Doc.empty [] where
  explained x hx := by simp [Doc.Gone, Doc.empty, StructStore.structs] at hx
  named h := h.elim
  held hx := absurd hx DeleteSet.names_empty
  paired x _ := iff_of_false DeleteSet.names_empty DeleteSet.names_empty

section Replay

variable {H : Shape} {bs : List Bytes} {b : Bytes} {u : Update}

theorem carriedBy_snoc (hu : decodeUpdate b = .ok u) :
    CarriedBy (bs ++ [b]) = fun x => CarriedBy bs x ∨ u.Units x := by
  funext x
  simp [CarriedBy, or_and_right, exists_or, hu]

theorem namedBy_snoc (hu : decodeUpdate b = .ok u) :
    NamedBy (bs ++ [b]) = fun x => NamedBy bs x ∨ u.deletes.Names x := by
  funext x
  simp [NamedBy, or_and_right, exists_or, hu]

/-- **A document that received updates of a history has been told what they carry**, and it is at
rest. -/
theorem Told.replay (hH : H.Grounded)
    (hbs : ∀ b ∈ bs, ∃ u, decodeUpdate b = .ok u ∧ u.FitsIn H) :
    ∃ w, Told H (CarriedBy bs) (Doc.replay bs) w ∧ (Doc.replay bs).Rest ∧
      ((∀ b ∈ bs, ∀ u, decodeUpdate b = .ok u → u.deletes.CleanIn H) →
        Named H (NamedBy bs) (Doc.replay bs) w) := by
  induction bs using List.reverseRecOn with
  | nil =>
    have hT : CarriedBy [] = fun _ => False := by
      funext x
      simp [CarriedBy]
    have hN : NamedBy [] = fun _ => False := by
      funext x
      simp [NamedBy]
    rw [hT, hN]
    exact ⟨[], .empty H, .empty, fun _ => .empty H⟩
  | append_singleton bs b ih =>
    obtain ⟨w, h, hr, hn⟩ := ih fun b' hb' => hbs b' (List.mem_append_left _ hb')
    obtain ⟨u, hu, hf⟩ := hbs b (by simp)
    obtain ⟨w', h', hr', -, hn'⟩ := h.apply hH hf
    rw [Doc.replay_snoc, Doc.receive_ok hu, carriedBy_snoc hu, namedBy_snoc hu]
    exact ⟨w', h', hr', fun hc => hn' _ (hc b (by simp) u hu)
      (hn fun b' hb' => hc b' (List.mem_append_left _ hb'))⟩

end Replay

/-! ### The shape of a history -/

namespace History

/-- An item of the history that carries the unit. -/
noncomputable def carrier (hist : List Bytes) (x : ID) : Item :=
  haveI : Nonempty Item := ⟨⟨x, none, none, none, false, [], .deleted 0, none⟩⟩
  Classical.epsilon fun it => Carries hist it ∧ x ∈ it.units

/-- The place of the unit in that item. -/
noncomputable def place (hist : List Bytes) (x : ID) : ℕ :=
  x.clock - (carrier hist x).id.clock

/-- The list the unit belongs to: the one that the wire names, or that of a neighbour, which was made
before. -/
noncomputable def listOf (hist : List Bytes) (time : ID → ℕ) (x : ID) : ListID :=
  match (carrier hist x).wireList (place hist x) with
  | some l => l
  | none =>
    match ((carrier hist x).originAt (place hist x)).or (carrier hist x).rightOrigin with
    | none => ⟨.root [], none⟩
    | some z => if _ : time z < time x then listOf hist time z else ⟨.root [], none⟩
termination_by time x

/-- What the history says about the units that were made before `n`. -/
noncomputable def shape (hist : List Bytes) (time : ID → ℕ) (n : ℕ) : Shape where
  mem x := HasUnit hist x ∧ time x < n
  origin x := (carrier hist x).originAt (place hist x)
  right x := (carrier hist x).rightOrigin
  list := listOf hist time
  low x := HasUnit hist x ∧ (carrier hist x).content.lowAt (place hist x) = true
  type x := (carrier hist x).content.isType = true
  gone x := (carrier hist x).content.isDeleted = true

theorem carrier_spec (hx : HasUnit hist x) :
    Carries hist (carrier hist x) ∧ place hist x < (carrier hist x).len ∧
      (carrier hist x).unit (place hist x) = x := by
  have hspec : Carries hist (carrier hist x) ∧ x ∈ (carrier hist x).units := Classical.epsilon_spec hx
  obtain ⟨hc, hlo, hhi⟩ := Item.mem_units.1 hspec.2
  refine ⟨hspec.1, ?_, ID.ext hc.symm ?_⟩
  · unfold place
    omega
  · simp only [Item.unit, place]
    omega

/-- The history carries the units of the item, as the item does. -/
def Known (hist : List Bytes) (it : Item) : Prop := ∃ it', Carries hist it' ∧ it.SliceOf it'

theorem Known.of_carries (h : Carries hist it) : Known hist it :=
  ⟨it, h, 0, rfl, by omega, fun i _ => by rw [Nat.zero_add]; exact ⟨rfl, rfl, rfl, rfl⟩⟩

section Units

variable (h : WellFormed hist) (hk : Known hist it)
include h hk

theorem agrees (hi : i < it.len) :
    HasUnit hist (it.unit i) ∧
      (carrier hist (it.unit i)).AgreesAt (place hist (it.unit i)) it i := by
  obtain ⟨it', hc, j, hid, hlen, hag⟩ := hk
  have hunit : it.unit i = it'.unit (j + i) := by
    simp [Item.unit, hid, Nat.add_assoc]
  have hx : HasUnit hist (it.unit i) := by
    refine ⟨it', hc, Item.mem_units.2 ?_⟩
    rw [hunit]
    exact ⟨rfl, by simp [Item.unit], by simp [Item.unit]; omega⟩
  obtain ⟨hcc, hp, hu⟩ := carrier_spec hx
  exact ⟨hx, (h.agree _ _ hcc hc _ hp _ (by omega) (hu.trans hunit)).trans (hag i hi).symm⟩

theorem origin_eq (hi : i < it.len) (n : ℕ) :
    (shape hist time n).origin (it.unit i) = it.originAt i := (agrees h hk hi).2.origin

theorem right_eq (hi : i < it.len) (n : ℕ) :
    (shape hist time n).right (it.unit i) = it.rightOrigin := (agrees h hk hi).2.right

theorem wireList_eq (hi : i < it.len) :
    (carrier hist (it.unit i)).wireList (place hist (it.unit i)) = it.wireList i :=
  (agrees h hk hi).2.list

theorem low_iff (hi : i < it.len) (n : ℕ) :
    (shape hist time n).low (it.unit i) ↔ it.content.lowAt i = true := by
  obtain ⟨hx, hag⟩ := agrees h hk hi
  simp only [shape, hx, true_and, Content.lowAt_iff, hag.content]

theorem kind_eq (hi : i < it.len) :
    (carrier hist (it.unit i)).content.isType = it.content.isType ∧
      (carrier hist (it.unit i)).content.isDeleted = it.content.isDeleted := by
  obtain ⟨-, hag⟩ := agrees h hk hi
  have hi' : i < it.content.unitList.length := by rwa [Content.length_unitList]
  have h₁ := Content.ofUnit_eq (List.getElem?_eq_getElem hi')
  have h₂ := Content.ofUnit_eq (hag.content.trans (List.getElem?_eq_getElem hi'))
  exact Prod.mk.inj (h₂.symm.trans h₁)

theorem not_low_end (hpos : 0 < it.len) (n : ℕ) :
    ¬(shape hist time n).low (it.unit it.len) := by
  rintro ⟨hx, hlow⟩
  obtain ⟨hcc, hp, hu⟩ := carrier_spec hx
  obtain ⟨v, hv⟩ := Content.lowAt_iff.1 hlow
  obtain ⟨hw, j, hj, hhigh⟩ := Content.pair_of_code hv
  set c := carrier hist (it.unit it.len)
  have hprev : c.unit j = it.unit (it.len - 1) := by
    rw [hj] at hu
    have hclock : c.id.clock + (j + 1) = it.id.clock + it.len := congrArg ID.clock hu
    have hclient : (c.unit (j + 1)).client = (it.unit it.len).client := by rw [hu]
    exact ID.ext hclient (by simp only [Item.unit]; omega)
  have hag := agrees h hk (i := it.len - 1) (by omega)
  have hag' := agrees h (Known.of_carries hcc) (i := j) (by omega)
  rw [hprev] at hag'
  have hcode := (hag.2.content.symm.trans hag'.2.content).trans hhigh
  have hnext := Content.code_low hcode hw
  rw [Nat.sub_add_cancel hpos, List.getElem?_eq_none (by rw [Content.length_unitList]; rfl)] at hnext
  cases hnext

omit h hk in
theorem low_pos (hx : (shape hist time n).low x) : 0 < x.clock := by
  obtain ⟨hu, hlow⟩ := hx
  obtain ⟨-, -, hux⟩ := carrier_spec hu
  obtain ⟨v, hv⟩ := Content.lowAt_iff.1 hlow
  obtain ⟨-, j, hj, -⟩ := Content.pair_of_code hv
  rw [← hux, hj]
  simp [Item.unit]

omit hk in
theorem low_iff_lowUnit : (shape hist time n).low x ↔ LowUnit hist x := by
  constructor
  · rintro ⟨hu, hlow⟩
    obtain ⟨hc, hp, hux⟩ := carrier_spec hu
    exact ⟨_, hc, _, hp, hux, hlow⟩
  · rintro ⟨it, hc, i, hi, rfl, hlow⟩
    exact (low_iff h (Known.of_carries hc) hi n).2 hlow

theorem hasUnit_of_le {k : ℕ} (hlt : k < it.id.clock + it.len) :
    HasUnit hist ⟨it.id.client, k⟩ := by
  obtain ⟨it', hc, j, hid, hlen, -⟩ := hk
  have hcl : it.id.client = it'.id.client := by rw [hid]; rfl
  have hck : it.id.clock = it'.id.clock + j := by rw [hid]; rfl
  rw [hcl]
  exact h.gapless it' hc k (by omega)

end Units

theorem time_lt {c j k : ℕ} (h : WellFormed hist)
    (hclocks : ∀ x, HasUnit hist x.next → time x < time x.next) (hx : HasUnit hist ⟨c, k⟩)
    (hlt : j < k) : time ⟨c, j⟩ < time ⟨c, k⟩ := by
  induction k with
  | zero => omega
  | succ k ih =>
    have hstep := hclocks ⟨c, k⟩ hx
    rcases Nat.lt_succ_iff_lt_or_eq.1 hlt with hlt | rfl
    · obtain ⟨hc, hp, hu⟩ := carrier_spec hx
      have hk := hasUnit_of_le h (Known.of_carries hc) (k := k) (by
        have := congrArg ID.clock hu
        simp only [Item.unit] at this
        omega)
      have hcl : (carrier hist ⟨c, k + 1⟩).id.client = c := congrArg ID.client hu
      rw [hcl] at hk
      exact (ih hk hlt).trans hstep
    · exact hstep

section Lists

variable (h : WellFormed hist) (hclocks : ∀ x, HasUnit hist x.next → time x < time x.next)
  (hk : Known hist it)
include h hk

theorem listOf_wire (hpos : 0 < it.len) {l : ListID} (hw : it.wireList 0 = some l) : listOf hist time it.id = l := by
  have hlist := wireList_eq h hk hpos
  rw [Item.unit_zero, hw] at hlist
  rw [listOf, hlist]

theorem listOf_neighbour (hpos : 0 < it.len) (hw : it.wireList 0 = none) {z : ID}
    (hz : it.origin.or it.rightOrigin = some z) (hlt : time z < time it.id) :
    listOf hist time it.id = listOf hist time z := by
  have hag := (agrees h hk hpos).2
  rw [Item.unit_zero] at hag
  have hz' : ((carrier hist it.id).originAt (place hist it.id)).or
      (carrier hist it.id).rightOrigin = some z := by
    rw [hag.origin, hag.right]
    exact hz
  rw [listOf, hag.list, hw]
  simp only [hz', hlt, dif_pos]

include hclocks

theorem listOf_unit (hi : i < it.len) :
    listOf hist time (it.unit i) = listOf hist time it.id := by
  induction i with
  | zero => rfl
  | succ i ih =>
    obtain ⟨hx, hag⟩ := agrees h hk hi
    have horigin : ((carrier hist (it.unit (i + 1))).originAt (place hist (it.unit (i + 1)))).or
        (carrier hist (it.unit (i + 1))).rightOrigin = some (it.unit i) := by
      rw [hag.origin]
      rfl
    have hlt : time (it.unit i) < time (it.unit (i + 1)) := hclocks _ hx
    rw [listOf, hag.list]
    simp only [Item.wireList, horigin, hlt, dif_pos]
    exact ih (by omega)

theorem exists_carrier (hpos : 0 < it.len) :
    ∃ it', Carries hist it' ∧ 0 < it'.len ∧ it.len ≤ it'.len ∧ time it'.id ≤ time it.id ∧
      listOf hist time it.id = listOf hist time it'.id := by
  obtain ⟨it', hc, j, hid, hlen, -⟩ := id hk
  have hx := (agrees h hk hpos).1
  refine ⟨it', hc, by omega, by omega, ?_, ?_⟩
  · rw [Item.unit_zero, hid] at hx
    rw [hid]
    rcases Nat.eq_zero_or_pos j with rfl | hj
    · exact le_rfl
    · have := time_lt (j := it'.id.clock) (k := it'.id.clock + j) h hclocks hx (by omega)
      exact this.le
  · rw [hid]
    exact listOf_unit h hclocks (Known.of_carries hc) (by omega)

end Lists

/-! ### The order in which units were made -/

/-- What is known of the units that were made before `n`. -/
structure Upto (hist : List Bytes) (time : ID → ℕ) (n : ℕ) : Prop where
  grounded : (shape hist time n).Grounded
  earlier : ∀ {x y}, (shape hist time n).mem x → (shape hist time n).Dep x y → time y < time x
  entry : ∀ {it}, Carries hist it → 0 < it.len → time it.id < n →
    (listOf hist time it.id).key ≠ none → it.len = 1

section Order

variable (h : WellFormed hist) (hclocks : ∀ x, HasUnit hist x.next → time x < time x.next)
include h hclocks

/-- An item whose units were made before `n` fits. -/
theorem Upto.fitsWire (hU : Upto hist time n) (hk : Known hist it) (hw : it.Wire)
    (hn : ∀ i < it.len, time (it.unit i) < n)
    (hbefore : ∀ k < it.id.clock, time ⟨it.id.client, k⟩ < n) :
    (shape hist time n).FitsWire it where
  mem i hi := ⟨(agrees h hk hi).1, hn i hi⟩
  origin hpos := origin_eq h hk hpos n
  follows i hi := origin_eq h hk hi n
  right i hi := right_eq h hk hi n
  low i hi := low_iff h hk hi n
  low_end hpos := not_low_end h hk hpos n
  type i hi := by
    simp only [shape, (kind_eq h hk hi).1]
  gone i hi := by
    simp only [shape, (kind_eq h hk hi).2]
  entry i hi hkey := by
    obtain ⟨it', hc, hpos', hlen, htime, hlist⟩ := exists_carrier h hclocks hk (by omega)
    have hkey' : (listOf hist time it'.id).key ≠ none := by
      rw [← hlist, ← listOf_unit h hclocks hk hi]
      exact hkey
    have := hU.entry hc hpos' (htime.trans_lt (hn 0 (by omega))) hkey'
    omega
  parent p hp hpos := listOf_wire h hk hpos (by simp [Item.wireList, hp])
  alone ho hr := hw.alone.2 ⟨ho, hr⟩
  before k hlt := ⟨hasUnit_of_le h hk (by omega), hbefore k hlt⟩

theorem Authored.fitsIn {known : List Bytes} (hU : Upto hist time n)
    (hA : Authored hist time it known) (hn : time it.id ≤ n) {b : Bytes} (hb : b ∈ known) :
    ∃ u, decodeUpdate b = .ok u ∧ u.FitsIn (shape hist time n) ∧
      ∀ x, u.Units x → HasUnit hist x ∧ time x < time it.id := by
  obtain ⟨u, hu, ⟨hneat, hitems⟩, hknown⟩ := hA.earlier b hb
  refine ⟨u, hu, ⟨hneat, fun st hst => ?_, fun blk hblk => ?_⟩, fun x hx => ?_⟩
  · obtain ⟨it₁, rfl⟩ := hitems st hst
    obtain ⟨hpos, hk, htime⟩ := hknown it₁ hst
    obtain ⟨blk, hblk, hst⟩ := Update.mem_structs.1 hst
    have htime' : ∀ i < it₁.len, time (it₁.unit i) < n := fun i hi =>
      (htime _ (List.mem_map_of_mem (List.mem_range.2 hi))).trans_le hn
    refine ⟨it₁, rfl, hU.fitsWire h hclocks hk ((decodeUpdate_spec hu blk hblk).2 it₁ hst) htime' ?_⟩
    exact fun k hk' => (time_lt h hclocks (agrees h hk hpos).1 hk').trans (htime' 0 hpos)
  · exact ⟨_, (decodeUpdate_spec hu blk hblk).1⟩
  · obtain ⟨it₁, hit, hx⟩ := hx
    obtain ⟨hpos, hk, htime⟩ := hknown it₁ hit
    obtain ⟨i, hi, rfl⟩ := List.mem_map.1 hx
    exact ⟨(agrees h hk (List.mem_range.1 hi)).1, htime _ hx⟩

omit h hclocks

/-- Where the author of an item put it: between `A` and `B` of a list of a document that represents
units that were made before. -/
structure Inserted (hist : List Bytes) (time : ID → ℕ) (n : ℕ) (it : Item) (d : Doc) (w : List ID)
    (A B : List ID) : Prop where
  rep : ∃ ch, Rep (shape hist time n) d w ch
  has : ∀ {y}, d.Has y → HasUnit hist y ∧ time y < time it.id
  own : d.state it.id.client = it.id.clock
  shown : (shape hist time n).ops.insertAll
    (w.filter fun x => listOf hist time x = listOf hist time it.id) = A ++ B
  left : A.getLast? = it.origin
  right : B.head? = it.rightOrigin
  deps : ∀ {y}, (shape hist time n).Dep it.id y → d.Has y
  owner : ∀ {o}, (listOf hist time it.id).parent = .nested o → (shape hist time n).type o
  entry : (listOf hist time it.id).key ≠ none → it.len = 1

include h hclocks

theorem Authored.inserted {known : List Bytes} (hU : Upto hist time n) (hc : Carries hist it)
    (hpos : 0 < it.len) (hA : Authored hist time it known) (hn : time it.id ≤ n) :
    ∃ w A B, Inserted hist time n it (Doc.replay known) w A B := by
  set H := shape hist time n with hHdef
  have hL := hU.grounded.toLawful
  obtain ⟨w, htold, -, -⟩ := Told.replay hU.grounded fun b hb => by
    obtain ⟨u, hu, hf, -⟩ := Authored.fitsIn h hclocks hU hA hn hb
    exact ⟨u, hu, hf⟩
  obtain ⟨ch, hr⟩ := htold.sound.rep
  have hhas : ∀ {y}, (Doc.replay known).Has y → HasUnit hist y ∧ time y < time it.id := by
    intro y hy
    obtain ⟨b, hb, u, hu, hx⟩ := htold.has hy
    obtain ⟨u', hu', -, hunits⟩ := Authored.fitsIn h hclocks hU hA hn hb
    obtain rfl := Except.ok.inj (hu.symm.trans hu')
    exact hunits y hx
  obtain ⟨l, L, hl, ⟨A, B, rfl, hleft, hright⟩, hwire, hentry⟩ := hA.place
  rw [hr.listUnits_eq, Option.some.injEq] at hl
  -- what the list shows is in the document, and belongs to the list
  have hmem : ∀ {y}, y ∈ A ++ B → (Doc.replay known).Has y ∧ listOf hist time y = l := by
    intro y hy
    rw [← hl, ← hr.flat] at hy
    exact (hr.mem_allUnits hL).1 hy
  have hk := Known.of_carries hc
  have horigin : ∀ {z}, it.origin = some z → z ∈ A ++ B := fun hz =>
    List.mem_append_left _ (List.mem_of_getLast? (hleft.trans hz))
  have hrightm : ∀ {z}, it.rightOrigin = some z → z ∈ A ++ B := fun hz =>
    List.mem_append_right _ (List.mem_of_head? (hright.trans hz))
  -- without a parent on the wire there is a neighbour
  have hnbr : it.wireList 0 = none → ∃ z ∈ A ++ B, it.origin.or it.rightOrigin = some z := by
    intro hw
    obtain ⟨b, hb, u, hu, hst⟩ := hc
    obtain ⟨blk, hblk, hst⟩ := Update.mem_structs.1 hst
    have halone := ((decodeUpdate_spec hu blk hblk).2 it hst).alone
    have hw' : it.wireParent = none := by simpa [Item.wireList] using hw
    cases ho : it.origin with
    | some z => exact ⟨z, horigin ho, rfl⟩
    | none =>
      cases hro : it.rightOrigin with
      | some z => exact ⟨z, hrightm hro, rfl⟩
      | none => exact absurd hw' (halone.2 ⟨ho, hro⟩)
  have hlist : listOf hist time it.id = l := by
    cases hw : it.wireList 0 with
    | some l' => exact (listOf_wire h hk hpos hw).trans (hwire l' hw).symm
    | none =>
      obtain ⟨z, hz, hor⟩ := hnbr hw
      exact (listOf_neighbour h hk hpos hw hor (hhas (hmem hz).1).2).trans (hmem hz).2
  have howner : ∀ {o}, l.parent = .nested o → (Doc.replay known).Has o ∧ H.type o := by
    intro o ho
    cases hw : it.wireList 0 with
    | some l' =>
      obtain rfl := hwire l' hw
      obtain ⟨p, hp, rfl⟩ := Option.map_eq_some_iff.1 hw
      obtain rfl : p = .item o := by
        cases p with
        | root name => cases ho
        | item id => exact congrArg _ (TypeID.nested.inj ho)
      obtain ⟨c, hat, htype⟩ := hA.parent o hp
      obtain ⟨hst, hx⟩ := Doc.stored_of_itemAt hr.gapless hat
      obtain ⟨i, hi, rfl⟩ := List.mem_map.1 hx
      exact ⟨hst.has hr.gapless hx, ((hr.fits hst).type i (List.mem_range.1 hi)).2 htype⟩
    | none =>
      obtain ⟨z, hz, -⟩ := hnbr hw
      obtain ⟨hzd, hzl⟩ := hmem hz
      have hzw := (hr.mem z).2 hzd
      have hzm : H.mem z := hr.causal.mem_of hzw
      have hzo : (H.list z).parent = .nested o := by
        change (listOf hist time z).parent = _
        rw [hzl, ho]
      refine ⟨(hr.mem o).1 (hr.causal.closed hzw (hL.dep_mem hzm (.owner hzo)) (.single (.owner hzo))),
        hL.owner_type hzm hzo⟩
  refine ⟨w, A, B, ⟨ch, hr⟩, hhas, hA.own, ?_, hleft, hright, fun {y} hy => ?_, fun ho => ?_,
    fun hkey => ?_⟩
  · rw [hlist]
    exact hl
  · generalize hid : it.id = x at hy
    cases hy with
    | prev c k =>
      have hown := hA.own
      rw [hid] at hown
      simp only [Doc.Has, hown]
      omega
    | origin ho =>
      rw [← hid, ← Item.unit_zero, origin_eq h hk hpos] at ho
      exact (hmem (horigin ho)).1
    | right hro =>
      rw [← hid, ← Item.unit_zero, right_eq h hk hpos] at hro
      exact (hmem (hrightm hro)).1
    | owner ho =>
      refine (howner ?_).1
      rw [← hlist, hid]
      exact ho
  · exact (howner (hlist ▸ ho)).2
  · exact (hentry (hlist ▸ hkey)).1

omit h hclocks

theorem dep_iff {m : ℕ} : (shape hist time n).Dep x y ↔ (shape hist time m).Dep x y := by
  constructor
  all_goals
    intro hd
    cases hd with
    | prev c k => exact .prev c k
    | origin ho => exact .origin ho
    | right hr => exact .right hr
    | owner ho => exact .owner ho

theorem past_eq (n m : ℕ) : (shape hist time n).Past = (shape hist time m).Past := by
  unfold Shape.Past
  congr 1
  funext x y
  exact propext dep_iff

/-- What is known of a unit that was made at `n`, from its author's document. -/
structure Made (hist : List Bytes) (time : ID → ℕ) (n : ℕ) (x : ID) : Prop where
  deps : ∀ {y}, (shape hist time n).Dep x y → (shape hist time n).mem y
  origin_list : ∀ {o}, (shape hist time n).origin x = some o →
    listOf hist time o = listOf hist time x
  right_list : ∀ {r}, (shape hist time n).right x = some r →
    listOf hist time r = listOf hist time x
  owner : ∀ {o}, (listOf hist time x).parent = .nested o → (shape hist time n).type o
  place : ∃ v, Causal (shape hist time n).Past ((shape hist time n).In (listOf hist time x)) v ∧
    Adjacent ((shape hist time n).ops.insertAll v) ((shape hist time n).origin x)
      ((shape hist time n).right x)

namespace Inserted

variable {d : Doc} {w A B : List ID} (hI : Inserted hist time n it d w A B)
  (hL : (shape hist time n).Lawful)
include hI

theorem not_has (i : ℕ) : ¬d.Has (it.unit i) := by
  have := hI.own
  simp only [Doc.Has, Item.unit, this]
  omega

include h hclocks in
/-- A unit of the item depends on what the author had, and on the units before it. -/
theorem unit_dep (hk : Known hist it) (hi : i < it.len)
    (hd : (shape hist time n).Dep (it.unit i) y) : d.Has y ∨ ∃ j < i, y = it.unit j := by
  cases i with
  | zero => exact .inl (hI.deps hd)
  | succ i =>
    have hlist := listOf_unit h hclocks hk hi
    have hright : (shape hist time n).right (it.unit (i + 1)) = it.rightOrigin :=
      right_eq h hk hi n
    have hright₀ : (shape hist time n).right (it.unit 0) = it.rightOrigin :=
      right_eq h hk (by omega) n
    generalize hx : it.unit (i + 1) = z at hd hlist hright
    cases hd with
    | prev c k =>
      obtain ⟨rfl, hck⟩ := ID.mk.inj hx
      exact .inr ⟨i, Nat.lt_succ_self i, ID.ext rfl (by simp [Item.unit]; omega)⟩
    | origin ho =>
      rw [← hx, origin_eq h hk hi] at ho
      exact .inr ⟨i, Nat.lt_succ_self i, (Option.some.inj ho).symm⟩
    | right hr =>
      refine .inl (hI.deps (.right ?_))
      rw [← Item.unit_zero, hright₀, ← hright]
      exact hr
    | owner ho =>
      refine .inl (hI.deps (.owner ?_))
      change (listOf hist time it.id).parent = _
      rw [← hlist]
      exact ho

include hL

theorem mem_list (hy : y ∈ A ++ B) :
    d.Has y ∧ listOf hist time y = listOf hist time it.id := by
  obtain ⟨ch, hr⟩ := hI.rep
  rw [← hI.shown] at hy
  refine (hr.mem_allUnits hL).1 ?_
  rw [allUnits, hr.flat]
  exact hy

include h hclocks in
theorem past_mem (hk : Known hist it) (hi : i < it.len)
    (hp : (shape hist time n).Past (it.unit i) y) : y ∈ w ∨ ∃ j < i, y = it.unit j := by
  obtain ⟨ch, hr⟩ := hI.rep
  induction i using Nat.strong_induction_on with
  | _ i ih =>
    obtain ⟨z, hz, hzy⟩ := Relation.TransGen.head'_iff.1 hp
    rcases hI.unit_dep h hclocks hk hi hz with hzd | ⟨j, hj, rfl⟩
    · have hzw := (hr.mem z).2 hzd
      rcases Relation.reflTransGen_iff_eq_or_transGen.1 hzy with rfl | hp'
      · exact .inl hzw
      · exact .inl (hr.causal.closed hzw (hL.closed (hr.causal.mem_of hzw) hp') hp')
    · rcases Relation.reflTransGen_iff_eq_or_transGen.1 hzy with rfl | hp'
      · exact .inr ⟨j, hj, rfl⟩
      · rcases ih j hj (by omega) hp' with hy | ⟨k, hkj, rfl⟩
        · exact .inl hy
        · exact .inr ⟨k, hkj.trans hj, rfl⟩

include h hclocks in
/-- The author's list and then the first units of the item, in an order that respects what they
depend on. -/
theorem causal_units (hk : Known hist it) (hi : i ≤ it.len) (ht : ∀ j < i, time (it.unit j) < n) :
    Causal (shape hist time n).Past ((shape hist time n).In (listOf hist time it.id))
      ((w.filter fun x => listOf hist time x = listOf hist time it.id) ++
        (List.range i).map it.unit) := by
  obtain ⟨ch, hr⟩ := hI.rep
  induction i with
  | zero =>
    rw [List.range_zero, List.map_nil, List.append_nil]
    exact hr.causal_list (listOf hist time it.id)
  | succ i ih =>
    rw [List.range_succ, List.map_append, ← List.append_assoc]
    refine (ih (by omega) fun j hj => ht j (by omega)).snoc
      ⟨⟨(agrees h hk hi).1, ht i (by omega)⟩, listOf_unit h hclocks hk hi⟩ ?_ ?_
    · rw [List.mem_append, List.mem_filter, List.mem_map]
      rintro (⟨hw, -⟩ | ⟨j, hj, hij⟩)
      · exact hI.not_has i ((hr.mem _).1 hw)
      · have := congrArg ID.clock hij
        simp only [Item.unit, List.mem_range] at this hj
        omega
    · intro y hy hp
      rcases hI.past_mem h hclocks hL hk hi hp with hw | ⟨j, hj, rfl⟩
      · exact List.mem_append_left _ (List.mem_filter.2 ⟨hw, decide_eq_true hy.2⟩)
      · exact List.mem_append_right _ (List.mem_map_of_mem (List.mem_range.2 hj))

omit hI hL in
theorem follows_range {H : Shape} {f : ℕ → ID} (m : ℕ)
    (hf : ∀ j < m, H.origin (f (j + 1)) = some (f j)) :
    H.ops.Follows (f 0) ((List.range m).map fun j => f (j + 1)) := by
  induction m generalizing f with
  | zero => exact trivial
  | succ m ih =>
    rw [List.range_succ_eq_map, List.map_cons, List.map_map]
    exact ⟨hf 0 (by omega), ih (f := fun j => f (j + 1)) fun j hj => hf (j + 1) (by omega)⟩

include h in
/-- The first units of the item stand where the author put them. -/
theorem insertAll_units (hk : Known hist it) (hi : i ≤ it.len) :
    (shape hist time n).ops.insertAll
        ((w.filter fun x => listOf hist time x = listOf hist time it.id) ++
          (List.range i).map it.unit) = A ++ (List.range i).map it.unit ++ B := by
  obtain ⟨ch, hr⟩ := id hI.rep
  cases i with
  | zero => simpa using hI.shown
  | succ i =>
    have horigin : ∀ j < it.len, (shape hist time n).origin (it.unit j) = it.originAt j :=
      fun j hj => origin_eq h hk hj n
    have hright : (shape hist time n).right (it.unit 0) = it.rightOrigin :=
      right_eq h hk (by omega) n
    have hunits : (List.range (i + 1)).map it.unit =
        it.id :: (List.range i).map fun j => it.unit (j + 1) := by
      rw [List.range_succ_eq_map, List.map_cons, List.map_map]
      rfl
    have hnew : ∀ y ∈ it.id :: (List.range i).map fun j => it.unit (j + 1), ¬d.Has y := by
      rw [← hunits]
      intro y hy
      obtain ⟨j, -, rfl⟩ := List.mem_map.1 hy
      exact hI.not_has j
    have hAB : (A ++ B).Nodup := by
      rw [← hI.shown]
      have := hr.nodup_units (listOf hist time it.id)
      rwa [allUnits, hr.flat] at this
    rw [hunits]
    refine insertAll_run_adjacent hI.shown ?_ ?_ ?_ ?_ ?_
    · exact hI.left.trans (horigin 0 (by omega)).symm
    · exact hI.right.trans hright.symm
    · have hu : (it.id :: (List.range i).map fun j => it.unit (j + 1)).Nodup := by
        rw [← hunits]
        exact List.Nodup.map (fun a b hab => by simpa [Item.unit] using hab) List.nodup_range
      rw [List.append_assoc]
      refine (List.perm_append_comm_assoc _ _ _).nodup_iff.2
        (List.nodup_append.2 ⟨hu, hAB, fun a ha b hb => ?_⟩)
      rintro rfl
      exact hnew a ha (hI.mem_list hL hb).1
    · exact follows_range (f := it.unit) i fun j hj => horigin (j + 1) (by omega)
    · intro v hv y hy ho
      have hvw := (hr.mem v).2 (hI.mem_list hL (List.mem_append_right _ hv)).1
      have hd : (shape hist time n).Dep v y := .origin ho
      exact hnew y hy ((hr.mem y).1 (hr.causal.closed hvw
        (hL.dep_mem (hr.causal.mem_of hvw) hd) (.single hd)))

include h hclocks in
theorem made (hk : Known hist it) (hi : i < it.len) (hn : time it.id ≤ n)
    (ht : ∀ j < i, time (it.unit j) < n) : Made hist time n (it.unit i) := by
  have hlist := listOf_unit h hclocks hk hi
  have hright : (shape hist time n).right (it.unit i) = it.rightOrigin := right_eq h hk hi n
  have horigin : (shape hist time n).origin (it.unit i) = it.originAt i := origin_eq h hk hi n
  refine ⟨fun hd => ?_, fun {o} ho => ?_, fun {r} hr => ?_, fun ho => hI.owner (hlist ▸ ho), ?_⟩
  · rcases hI.unit_dep h hclocks hk hi hd with hy | ⟨j, hj, rfl⟩
    · exact ⟨(hI.has hy).1, (hI.has hy).2.trans_le hn⟩
    · exact ⟨(agrees h hk (by omega)).1, ht j hj⟩
  · rw [horigin] at ho
    rw [hlist]
    cases i with
    | zero =>
      have ho : it.origin = some o := ho
      exact (hI.mem_list hL
        (List.mem_append_left _ (List.mem_of_getLast? (hI.left.trans ho)))).2
    | succ i =>
      rw [← Option.some.inj ho]
      exact listOf_unit h hclocks hk (by omega)
  · rw [hright] at hr
    rw [hlist]
    exact (hI.mem_list hL (List.mem_append_right _ (List.mem_of_head? (hI.right.trans hr)))).2
  · rw [hlist]
    refine ⟨_, hI.causal_units h hclocks hL hk hi.le ht, A ++ (List.range i).map it.unit, B,
      hI.insertAll_units h hL hk hi.le, ?_, hI.right.trans hright.symm⟩
    rw [horigin]
    cases i with
    | zero => simpa [Item.originAt] using hI.left
    | succ i => rw [List.range_succ, List.map_append, ← List.append_assoc]; simp [Item.originAt]

end Inserted

theorem Upto.zero : Upto hist time 0 where
  grounded := {
    dep_mem := fun h => absurd h.2 (Nat.not_lt_zero _)
    origin_list := fun h => absurd h.2 (Nat.not_lt_zero _)
    origin_low := fun h => absurd h.2 (Nat.not_lt_zero _)
    right_list := fun h => absurd h.2 (Nat.not_lt_zero _)
    right_low := fun h => absurd h.2 (Nat.not_lt_zero _)
    low_pos := low_pos
    owner_type := fun h => absurd h.2 (Nat.not_lt_zero _)
    wf := ⟨fun _ => 0, fun h => absurd h.2 (Nat.not_lt_zero _)⟩
    anchored := fun h => absurd h.2 (Nat.not_lt_zero _)
    straddles := fun h => absurd h.2 (Nat.not_lt_zero _) }
  earlier h := absurd h.2 (Nat.not_lt_zero _)
  entry _ _ h := absurd h (Nat.not_lt_zero _)

theorem Upto.down (hU : Upto hist time n) (l : ListID) (x y : ID)
    (hx : (shape hist time n).In l x) (hy : (shape hist time (n + 1)).In l y)
    (hp : (shape hist time (n + 1)).Past x y) : (shape hist time n).In l y := by
  rw [past_eq (n + 1) n] at hp
  exact ⟨⟨hy.1.1, (hU.grounded.time_lt hU.earlier hx.1 hp).trans hx.1.2⟩, hy.2⟩

theorem ops_succ : (shape hist time (n + 1)).ops = (shape hist time n).ops := rfl

theorem in_succ (l : ListID) (x : ID) (hx : (shape hist time n).In l x) :
    (shape hist time (n + 1)).In l x :=
  ⟨⟨hx.1.1, hx.1.2.trans (Nat.lt_succ_self n)⟩, hx.2⟩

theorem Upto.causal_succ (hU : Upto hist time n) {l : ListID} {v : List ID}
    (hv : Causal (shape hist time n).Past ((shape hist time n).In l) v) :
    Causal (shape hist time (n + 1)).Past ((shape hist time (n + 1)).In l) v := by
  rw [past_eq n (n + 1)] at hv
  exact hv.mono (in_succ l) (hU.down l)

theorem Upto.anchored_succ (hU : Upto hist time n) {l : ListID} (hx : (shape hist time n).In l x) :
    (shape hist time (n + 1)).ops.Anchored (shape hist time (n + 1)).Past
      ((shape hist time (n + 1)).In l) x := by
  obtain ⟨hx, rfl⟩ := hx
  have ha := hU.grounded.anchored hx
  rw [past_eq n (n + 1)] at ha
  exact ha.mono (in_succ _) (hU.down _)

include h hclocks in
theorem Upto.made (hU : Upto hist time n)
    (hauth : ∀ it, Carries hist it → 0 < it.len → ∃ known, Authored hist time it known)
    (hx : HasUnit hist x) (hn : time x = n) : Made hist time n x := by
  obtain ⟨hc, hp, hux⟩ := carrier_spec hx
  set it := carrier hist x
  set i := place hist x
  have hk := Known.of_carries hc
  have ht : ∀ j < i, time (it.unit j) < n := fun j hj => by
    have hx' : HasUnit hist (it.unit i) := hux ▸ hx
    have := time_lt (j := it.id.clock + j) (k := it.id.clock + i) h hclocks hx' (by omega)
    rw [← hn, ← hux]
    exact this
  have hle : time it.id ≤ n := by
    rcases Nat.eq_zero_or_pos i with h0 | hpos
    · rw [← hn, ← hux, h0, Item.unit_zero]
    · exact (ht 0 hpos).le
  obtain ⟨known, hA⟩ := hauth it hc (by omega)
  obtain ⟨w, A, B, hI⟩ := Authored.inserted h hclocks hU hc (by omega) hA hle
  rw [← hux]
  exact hI.made h hclocks hU.grounded.toLawful hk hp hle ht

include h in
theorem shape_low (hx : HasUnit hist x) :
    (∀ o, (shape hist time n).origin x = some o → ¬(shape hist time n).low o.next ∨ o.next = x) ∧
      ∀ r, (shape hist time n).right x = some r → ¬(shape hist time n).low r := by
  obtain ⟨hc, hp, hux⟩ := carrier_spec hx
  have hk := Known.of_carries hc
  obtain ⟨hleft, hright⟩ := h.boundary _ hc (by omega)
  refine ⟨fun o ho => ?_, fun r hr => ?_⟩
  · have ho : (carrier hist x).originAt (place hist x) = some o := ho
    generalize place hist x = i at ho hux
    cases i with
    | zero => exact .inl fun hl => hleft o ho ((low_iff_lowUnit h).1 hl)
    | succ i =>
      rw [← Option.some.inj ho]
      exact .inr hux
  · exact fun hl => hright r hr ((low_iff_lowUnit h).1 hl)

include h hclocks in
/-- One more moment. -/
theorem Upto.succ (hU : Upto hist time n)
    (hauth : ∀ it, Carries hist it → 0 < it.len → ∃ known, Authored hist time it known) :
    Upto hist time (n + 1) := by
  have hmade : ∀ {x}, (shape hist time (n + 1)).mem x →
      (shape hist time n).mem x ∨ Made hist time n x := fun {x} hx => by
    rcases Nat.lt_succ_iff_lt_or_eq.1 hx.2 with hlt | heq
    · exact .inl ⟨hx.1, hlt⟩
    · exact .inr (hU.made h hclocks hauth hx.1 heq)
  have hearlier : ∀ {x y}, (shape hist time (n + 1)).mem x → (shape hist time (n + 1)).Dep x y →
      (shape hist time n).mem y ∧ time y < time x := by
    intro x y hx hd
    rw [dep_iff (m := n)] at hd
    rcases Nat.lt_succ_iff_lt_or_eq.1 hx.2 with hlt | heq
    · have hxn : (shape hist time n).mem x := ⟨hx.1, hlt⟩
      exact ⟨hU.grounded.dep_mem hxn hd, hU.earlier hxn hd⟩
    · have := (hU.made h hclocks hauth hx.1 heq).deps hd
      exact ⟨this, heq ▸ this.2⟩
  have hL : (shape hist time (n + 1)).Lawful := {
    dep_mem := fun hx hd => ⟨(hearlier hx hd).1.1, (hearlier hx hd).1.2.trans (Nat.lt_succ_self n)⟩
    origin_list := fun hx ho => (hmade hx).elim (fun hx => hU.grounded.origin_list hx ho)
      fun hm => hm.origin_list ho
    origin_low := fun hx ho => (shape_low h hx.1).1 _ ho
    right_list := fun hx hr => (hmade hx).elim (fun hx => hU.grounded.right_list hx hr)
      fun hm => hm.right_list hr
    right_low := fun hx hr => (shape_low h hx.1).2 _ hr
    low_pos := low_pos
    owner_type := fun hx ho => (hmade hx).elim (fun hx => hU.grounded.owner_type hx ho)
      fun hm => hm.owner ho
    wf := ⟨time, fun hx hd => (hearlier hx hd).2⟩ }
  refine ⟨{ hL with anchored := fun {x} hx => ?_, straddles := fun {x o r} hx ho hr => ?_ },
    fun hx hd => (hearlier hx hd).2, fun hc hpos ht hkey => ?_⟩
  · rcases hmade hx with hxn | ⟨-, -, -, -, v, hv, hadj⟩
    · exact hU.anchored_succ ⟨hxn, rfl⟩
    · exact anchored_of_adjacent (hL.ops _) .trans (hU.causal_succ hv) ⟨hx, rfl⟩
        (fun y hy => hU.anchored_succ (hv.mem_of hy)) hadj
  · rcases hmade hx with hxn | ⟨-, -, -, -, v, hv, hadj⟩
    · obtain ⟨v, hv, hvx, hb⟩ := hU.grounded.straddles hxn ho hr
      exact ⟨v, hU.causal_succ hv, by rwa [past_eq (n + 1) n], hb⟩
    · refine before_restrict (hL.ops _) .trans (hU.causal_succ hv)
        (fun y hy => hU.anchored_succ (hv.mem_of hy)) (.single (.origin ho)) (.single (.right hr)) ?_
      obtain ⟨A, B, hAB, hA, hB⟩ := hadj
      rw [ops_succ, hAB]
      exact before_of_mem (List.mem_of_getLast? (hA.trans ho)) (List.mem_of_head? (hB.trans hr))
  · rcases Nat.lt_succ_iff_lt_or_eq.1 ht with hlt | heq
    · exact hU.entry hc hpos hlt hkey
    · obtain ⟨known, hA⟩ := hauth _ hc hpos
      obtain ⟨w, A, B, hI⟩ := Authored.inserted h hclocks hU hc hpos hA heq.le
      exact hI.entry hkey

end Order

theorem upto (h : WellFormed hist) (hclocks : ∀ x, HasUnit hist x.next → time x < time x.next)
    (hauth : ∀ it, Carries hist it → 0 < it.len → ∃ known, Authored hist time it known) (n : ℕ) :
    Upto hist time n := by
  induction n with
  | zero => exact .zero
  | succ n ih => exact ih.succ h hclocks hauth

/-- The units of the items of an update. -/
def unitsIn (b : Bytes) : List ID :=
  match decodeUpdate b with
  | .ok u => u.structs.flatMap fun
    | .item it => it.units
    | _ => []
  | .error _ => []

theorem exists_bound (hist : List Bytes) (time : ID → ℕ) :
    ∃ n, ∀ x, HasUnit hist x → time x < n := by
  obtain ⟨n, hn⟩ : ∃ n, ∀ x ∈ hist.flatMap unitsIn, time x < n := by
    induction hist.flatMap unitsIn with
    | nil => exact ⟨0, by simp⟩
    | cons x xs ih =>
      obtain ⟨n, hn⟩ := ih
      refine ⟨max n (time x + 1), fun y hy => ?_⟩
      rcases List.mem_cons.1 hy with rfl | hy
      · omega
      · have := hn y hy
        omega
  refine ⟨n, ?_⟩
  rintro x ⟨it, ⟨b, hb, u, hu, hit⟩, hx⟩
  refine hn x (List.mem_flatMap.2 ⟨b, hb, ?_⟩)
  simp only [unitsIn, hu]
  exact List.mem_flatMap.2 ⟨_, hit, hx⟩

end History

open History in
/-- The shape is what the history says of its units. -/
structure ShapeOf (hist : List Bytes) (H : Shape) : Prop where
  grounded : H.Grounded
  mem : ∀ {x}, H.mem x ↔ HasUnit hist x
  low : ∀ {x}, H.low x ↔ LowUnit hist x
  fits : ∀ {it}, Known hist it → it.Wire → H.FitsWire it

open History in
/-- **A well-formed history has a shape.** -/
theorem WellFormed.exists_shape (h : WellFormed hist) : ∃ H, ShapeOf hist H := by
  obtain ⟨time, hclocks, hauth⟩ := h.authored
  obtain ⟨n, hn⟩ := exists_bound hist time
  have hU := upto h hclocks hauth n
  refine ⟨shape hist time n, hU.grounded, ⟨fun hx => hx.1, fun hx => ⟨hx, hn _ hx⟩⟩,
    low_iff_lowUnit h, fun hk hw => hU.fitsWire h hclocks hk hw (fun i hi => ?_) fun k hk' => ?_⟩
  · exact hn _ (agrees h hk hi).1
  · exact hn _ (hasUnit_of_le h hk (by omega))

open History in
theorem ShapeOf.fitsIn {H : Shape} {b : Bytes} (hS : ShapeOf hist H) (h : WellFormed hist)
    (hb : b ∈ hist) : ∃ u, decodeUpdate b = .ok u ∧ u.FitsIn H := by
  obtain ⟨u, hu, hneat, hitems⟩ := h.decodes b hb
  refine ⟨u, hu, hneat, fun st hst => ?_, fun blk hblk => ⟨_, (decodeUpdate_spec hu blk hblk).1⟩⟩
  obtain ⟨it, rfl⟩ := hitems st hst
  obtain ⟨blk, hblk, hmem⟩ := Update.mem_structs.1 hst
  exact ⟨it, rfl, hS.fits (.of_carries ⟨b, hb, u, hu, hst⟩) ((decodeUpdate_spec hu blk hblk).2 it hmem)⟩

end YCollab.Crdt
