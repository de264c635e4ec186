import YCollab.Crdt.Contains
import YCollab.Crdt.Legible

/-!
# What an item refers to came before it

An item is stored as an item only if what it refers to was found: its left neighbour is the last
unit of a stored item, its right neighbour the first unit of one, and the item that holds its parent
holds a type (`Doc.Rooted`). All of these came before it: the units of a document can be numbered
such that each stored item comes after what it refers to, and the units of one client come in the
order of their clocks (`Doc.Ranked`).

Both hold of every document, whatever updates it received (`Doc.replay_founded`). They are what lets
the whole of a document be sent and integrated again.
-/

namespace YCollab.Crdt

open Lib0

/-- The item names the unit on the wire: as a neighbour or, without one, as the item that holds its
parent. -/
def Item.Names (it : Item) (y : ID) : Prop :=
  it.origin = some y ∨ it.rightOrigin = some y ∨
    it.absent = true ∧ it.parent = some (.nested y)

theorem Item.absent_iff {it : Item} :
    it.absent = true ↔ it.origin = none ∧ it.rightOrigin = none := by
  simp [absent]

theorem Item.Piece.absent {it p : Item} (hp : it.Piece p) (h : p.absent = true) :
    it.absent = true := by
  obtain ⟨ho, hr⟩ := absent_iff.1 h
  refine absent_iff.2 ⟨?_, hp.named_eq.2.1 ▸ hr⟩
  rcases hp.origin_eq with heq | ⟨-, heq⟩
  · exact heq ▸ ho
  · simp [ho] at heq

theorem Item.Names.of_piece {it p : Item} {y : ID} (hp : it.Piece p) (h : p.Names y) :
    it.Names y ∨ it.id.clock < p.id.clock ∧ y = ⟨p.id.client, p.id.clock - 1⟩ := by
  rcases h with h | h | ⟨habs, h⟩
  · rcases hp.origin_eq with heq | ⟨hlt, heq⟩
    · exact .inl (.inl (heq ▸ h))
    · exact .inr ⟨hlt, Option.some.inj (h.symm.trans heq)⟩
  · exact .inl (.inr (.inl (hp.named_eq.2.1 ▸ h)))
  · exact .inl (.inr (.inr ⟨hp.absent habs, hp.parent_eq.1 ▸ h⟩))

namespace Doc

variable {d d' : Doc} {it it' : Item} {st : Struct} {u : Update} {x y : ID} {l : List Struct}
  {rank : ID → ℕ} {n : ℕ}

/-- What the item refers to is in the store, where the item needs it. -/
structure Rooted (d : Doc) (it : Item) : Prop where
  parent : it.parent ≠ none
  origin : ∀ y, it.origin = some y → ∃ l, d.Stored l ∧ l.lastID = y
  right : ∀ y, it.rightOrigin = some y → ∃ r, d.Stored r ∧ r.id = y
  owner : it.absent = true → ∀ y, it.parent = some (.nested y) →
    ∃ t, d.Stored t ∧ t.id = y ∧ t.content.isType = true

/-- The units are numbered below `n`, those of one client in the order of their clocks, and what an
item names before the item. -/
structure Ranked (d : Doc) (rank : ID → ℕ) (n : ℕ) : Prop where
  lt (x : ID) : d.Has x → rank x < n
  mono (c k k' : ℕ) : k < k' → d.Has ⟨c, k'⟩ → rank ⟨c, k⟩ < rank ⟨c, k'⟩
  named (it : Item) (y : ID) : d.Stored it → it.Names y → rank y < rank it.id

/-- Every item is rooted, and the units can be numbered. -/
structure Founded (d : Doc) : Prop where
  rooted : ∀ it, d.Stored it → d.Rooted it
  ranked : ∃ rank n, d.Ranked rank n

theorem Founded.empty : Doc.empty.Founded := by
  refine ⟨fun it hst => (by cases hst), fun _ => 0, 0, ?_, ?_, ?_⟩
  · exact fun x hx => absurd hx (Nat.not_lt_zero _)
  · exact fun c k k' _ hx => absurd hx (Nat.not_lt_zero _)
  · exact fun it y hst => by cases hst

theorem Rooted.has (h : d.Rooted it) (hg : d.store.Gapless) (hn : it.Names y) : d.Has y := by
  rcases hn with hn | hn | ⟨habs, hn⟩
  · obtain ⟨l, hl, rfl⟩ := h.origin y hn
    refine hl.has hg (Item.mem_units.2 ⟨rfl, ?_, ?_⟩)
    · have := hl.pos hg
      simp only [Item.lastID]
      omega
    · have := hl.pos hg
      simp only [Item.lastID]
      omega
  · obtain ⟨r, hr, rfl⟩ := h.right y hn
    exact hr.has hg (hr.id_mem_units hg)
  · obtain ⟨t, ht, rfl, -⟩ := h.owner habs y hn
    exact ht.has hg (ht.id_mem_units hg)

/-! ### Cuts and deletions -/

theorem Marks.exists_end (hm : Marks d d') (hg : d.store.Gapless) (hst : d.Stored it) :
    ∃ it', d'.Stored it' ∧ it'.lastID = it.lastID := by
  have hpos := hst.pos hg
  have hlast : it.lastID ∈ it.units :=
    Item.mem_units.2 ⟨rfl, by simp only [Item.lastID]; omega, by simp only [Item.lastID]; omega⟩
  obtain ⟨it', hst', hx, hp⟩ := hm.exists_piece hg hst hlast
  have hpos' := hst'.pos hm.gapless
  have hlast' : it'.lastID ∈ it'.units :=
    Item.mem_units.2 ⟨rfl, by simp only [Item.lastID]; omega, by simp only [Item.lastID]; omega⟩
  -- the last unit of the piece is one of the item, and the other way round
  obtain ⟨hc, -, hle⟩ := Item.mem_units.1 (hp.low hlast').1
  obtain ⟨-, -, hge⟩ := Item.mem_units.1 hx
  refine ⟨it', hst', ID.ext hc ?_⟩
  simp only [Item.lastID] at hle hge ⊢
  omega

theorem Marks.exists_start (hm : Marks d d') (hg : d.store.Gapless) (hst : d.Stored it) :
    ∃ it', d'.Stored it' ∧ it'.id = it.id ∧ it.Piece it' := by
  obtain ⟨it', hst', hx, hp⟩ := hm.exists_piece hg hst (hst.id_mem_units hg)
  obtain ⟨hc, hle, -⟩ := Item.mem_units.1 hx
  refine ⟨it', hst', ID.ext hc.symm ?_, hp⟩
  have := hp.clock_le
  omega

theorem Rooted.marks (h : d.Rooted it) (hg : d.store.Gapless) (hm : Marks d d') :
    d'.Rooted it where
  parent := h.parent
  origin y hy := by
    obtain ⟨l, hl, rfl⟩ := h.origin y hy
    exact hm.exists_end hg hl
  right y hy := by
    obtain ⟨r, hr, rfl⟩ := h.right y hy
    obtain ⟨r', hr', hid, -⟩ := hm.exists_start hg hr
    exact ⟨r', hr', hid⟩
  owner habs y hy := by
    obtain ⟨t, ht, rfl, htype⟩ := h.owner habs y hy
    obtain ⟨t', ht', hid, hp⟩ := hm.exists_start hg ht
    refine ⟨t', ht', hid, ?_⟩
    rw [piece_eq hp (Content.len_of_isType htype)]
    exact htype

/-- A piece that is stored is rooted: in front of it is the rest of its item. -/
theorem Rooted.piece (h : d.Rooted it) (hg : d.store.Gapless) (hst : d.Stored it)
    (hm : Marks d d') (hp : it.Piece it') (hst' : d'.Stored it') : d'.Rooted it' := by
  have h' := h.marks hg hm
  obtain ⟨hclient, hright, -⟩ := hp.named_eq
  refine ⟨hp.parent_eq.1 ▸ h.parent, fun y hy => ?_, fun y hy => h'.right y (hright ▸ hy),
    fun habs y hy => h'.owner (hp.absent habs) y (hp.parent_eq.1 ▸ hy)⟩
  rcases hp.origin_eq with heq | ⟨hlt, heq⟩
  · exact h'.origin y (heq ▸ hy)
  obtain rfl := Option.some.inj (heq.symm.trans hy)
  obtain ⟨-, -, hhi⟩ := Item.mem_units.1 (hp.low (hst'.id_mem_units hm.gapless)).1
  have hx : ⟨it'.id.client, it'.id.clock - 1⟩ ∈ it.units :=
    Item.mem_units.2 ⟨hclient, by simp only; omega, by simp only; omega⟩
  obtain ⟨l, hl, hxl, -⟩ := hm.exists_piece hg hst hx
  refine ⟨l, hl, ?_⟩
  -- the piece in front ends there, for otherwise the two would overlap
  obtain ⟨hc, hlo, hhi⟩ := Item.mem_units.1 hxl
  simp only at hc hlo hhi
  have hend : ¬it'.id.clock < l.id.clock + l.len := by
    intro hlt'
    have hmem : it'.id ∈ l.units := Item.mem_units.2 ⟨hc, by omega, hlt'⟩
    obtain rfl := hl.unique hst' hm.gapless hmem (hst'.id_mem_units hm.gapless)
    omega
  refine ID.ext hc.symm ?_
  simp only [Item.lastID]
  omega

theorem Ranked.marks (h : d.Ranked rank n) (hm : Marks d d') : d'.Ranked rank n := by
  have hhas : ∀ {x}, d'.Has x → d.Has x := by
    intro x hx
    unfold Has at hx
    rwa [hm.state] at hx
  refine ⟨fun x hx => h.lt x (hhas hx), fun c k k' hk hx => h.mono c k k' hk (hhas hx),
    fun it' y hst' hn => ?_⟩
  obtain ⟨it, hst, hp⟩ := hm.pieces it' hst'
  have hself := hhas (hst'.has hm.gapless (hst'.id_mem_units hm.gapless))
  rcases hn.of_piece hp with hn | ⟨hlt, rfl⟩
  · refine (h.named it y hst hn).trans_le ?_
    -- a piece does not start before its item
    have hid : it.id = ⟨it'.id.client, it.id.clock⟩ := ID.ext hp.named_eq.1.symm rfl
    rcases hp.clock_le.lt_or_eq with hlt | heq
    · rw [hid]
      exact (h.mono _ _ _ hlt hself).le
    · rw [show it'.id = it.id from ID.ext hp.named_eq.1 heq.symm]
  · exact h.mono _ _ _ (show it'.id.clock - 1 < it'.id.clock by omega) hself

theorem Founded.marks (h : d.Founded) (hg : d.store.Gapless) (hm : Marks d d') : d'.Founded := by
  obtain ⟨rank, n, hr⟩ := h.ranked
  refine ⟨fun it' hst' => ?_, rank, n, hr.marks hm⟩
  obtain ⟨it, hst, hp⟩ := hm.pieces it' hst'
  exact (h.rooted it hst).piece hg hst hm hp hst'

theorem Founded.edits (h : d.Founded) (hg : d.store.Gapless) (he : Edits d d') : d'.Founded :=
  h.marks hg (he.marks hg)

theorem Founded.of_store (h : d.Founded) (hs : d'.store = d.store) : d'.Founded := by
  obtain ⟨rank, n, hr⟩ := h.ranked
  have hhas : ∀ {x}, d'.Has x → d.Has x := by
    intro x hx
    unfold Has state at hx
    rwa [hs] at hx
  have hstored : ∀ {it}, d'.Stored it ↔ d.Stored it := by
    intro it
    rw [Stored, Stored, hs]
  refine ⟨fun it hst => ?_, rank, n, fun x hx => hr.lt x (hhas hx),
    fun c k k' hk hx => hr.mono c k k' hk (hhas hx),
    fun it y hst hn => hr.named it y (hstored.1 hst) hn⟩
  have h := h.rooted it (hstored.1 hst)
  refine ⟨h.parent, ?_, ?_, ?_⟩
  · simpa only [hstored] using h.origin
  · simpa only [hstored] using h.right
  · simpa only [hstored] using h.owner

/-! ### One struct more -/

theorem Rooted.mono (h : d.Rooted it) (hmono : ∀ it, d.Stored it → d'.Stored it) :
    d'.Rooted it where
  parent := h.parent
  origin y hy := by
    obtain ⟨l, hl, hid⟩ := h.origin y hy
    exact ⟨l, hmono l hl, hid⟩
  right y hy := by
    obtain ⟨r, hr, hid⟩ := h.right y hy
    exact ⟨r, hmono r hr, hid⟩
  owner habs y hy := by
    obtain ⟨t, ht, hid⟩ := h.owner habs y hy
    exact ⟨t, hmono t ht, hid⟩

/-- A new struct whose item is rooted: its units come last. -/
theorem Founded.append (h : d.Founded) (st : Struct) (hg : d.store.Gapless) (hpos : 0 < st.len)
    (hskip : st.isSkip = false) (hs : d.state st.id.client = st.id.clock)
    (hstore : d'.store = d.store.append st) (hitem : ∀ it, st = .item it → d.Rooted it) :
    d'.Founded := by
  obtain ⟨rank, n, hr⟩ := h.ranked
  have hmono : ∀ it, d.Stored it → d'.Stored it := fun it =>
    structs_subset_append hs hstore it.id.client
  have hstored : ∀ it, d'.Stored it → d.Stored it ∨ st = .item it := by
    intro it hst
    unfold Stored at hst
    rw [hstore, StructStore.structs_append hs] at hst
    split at hst
    · rcases List.mem_append.1 hst with hm | hm
      · exact .inl (.of_mem hg hm)
      · exact .inr (List.mem_singleton.1 hm).symm
    · exact .inl hst
  have hend : ∀ x, d'.Has x → d.Has x ∨ x.clock < st.endClock := by
    intro x hx
    unfold Has state at hx
    rw [hstore, hg.state_append hpos hskip hs] at hx
    split at hx
    · exact .inr hx
    · exact .inl hx
  let rank' : ID → ℕ := fun x => if x.clock < d.state x.client then rank x else n + x.clock
  have hold : ∀ {x}, d.Has x → rank' x = rank x := fun hx => if_pos hx
  have hnew : ∀ {x}, ¬d.Has x → rank' x = n + x.clock := fun hx => if_neg hx
  refine ⟨fun it hst => ?_, rank', n + st.endClock, fun x hx => ?_, fun c k k' hk hx => ?_,
    fun it y hst hn => ?_⟩
  · rcases hstored it hst with hst | rfl
    · exact (h.rooted it hst).mono hmono
    · exact (hitem it rfl).mono hmono
  · by_cases hx' : d.Has x
    · rw [hold hx']
      exact (hr.lt x hx').trans_le (Nat.le_add_right ..)
    · rw [hnew hx']
      have := (hend x hx).resolve_left hx'
      omega
  · by_cases hx' : d.Has ⟨c, k'⟩
    · have hxk : d.Has ⟨c, k⟩ := hk.trans hx'
      rw [hold hx', hold hxk]
      exact hr.mono c k k' hk hx'
    · rw [hnew hx']
      by_cases hxk : d.Has ⟨c, k⟩
      · rw [hold hxk]
        exact (hr.lt _ hxk).trans_le (Nat.le_add_right ..)
      · rw [hnew hxk]
        exact Nat.add_lt_add_left hk n
  · rcases hstored it hst with hst | rfl
    · rw [hold ((h.rooted it hst).has hg hn), hold (hst.has hg (hst.id_mem_units hg))]
      exact hr.named it y hst hn
    · have hy := (hitem it rfl).has hg hn
      have hid : ¬d.Has it.id := fun hid => absurd hid (Nat.not_lt.2 hs.le)
      rw [hold hy, hnew hid]
      exact (hr.lt y hy).trans_le (Nat.le_add_right ..)

/-! ### Turns -/

theorem resolveParent_names (d : Doc) (it : Item) (left right : Option Item) :
    (d.resolveParent it left right).origin = it.origin ∧
      (d.resolveParent it left right).rightOrigin = it.rightOrigin := by
  unfold resolveParent
  split
  · split <;> exact ⟨rfl, rfl⟩
  · exact ⟨rfl, rfl⟩
  · split
    · split <;> exact ⟨rfl, rfl⟩
    · exact ⟨rfl, rfl⟩

theorem resolveParent_owner (hg : d.store.Gapless) {left right : Option Item}
    (hw : it.wireParent ≠ none) (h : (d.resolveParent it left right).parent = some (.nested y)) :
    ∃ t, d.Stored t ∧ t.id = y ∧ t.content.isType = true := by
  unfold resolveParent at h
  split at h
  next hnone => exact absurd hnone hw
  next => cases h
  next owner _ =>
    split at h
    next o hget =>
      split at h
      next ref name hcont =>
        cases h
        exact ⟨o, (stored_of_getItem hg hget).1, rfl, by simp [hcont, Content.isType]⟩
      next => cases h
    next => cases h

theorem resolve_rooted (hg : d.store.Gapless) (hit : it.Decoded) {left right : Option ID}
    (h : d.resolve it = some (d', it', left, right)) (hp : it'.parent ≠ none) :
    d'.Rooted it' := by
  obtain ⟨hc, -, l, -, hl, rfl | ⟨r, rfl, hlast, hid, hr⟩⟩ := resolve_cases hg h
  · exact absurd rfl hp
  obtain ⟨ho, hro⟩ := d'.resolveParent_names it l r
  refine ⟨hp, fun y hy => ?_, fun y hy => ?_, fun habs y hy => ?_⟩
  · obtain ⟨n, rfl, rfl⟩ := Option.map_eq_some_iff.1 (hlast.trans (ho.symm.trans hy))
    obtain ⟨d₁, hc₁, -, he, hst⟩ := hl n rfl
    exact (he.marks hc₁.gapless).exists_end hc₁.gapless hst
  · obtain ⟨n, rfl, rfl⟩ := Option.map_eq_some_iff.1 (hid.trans (hro.symm.trans hy))
    exact ⟨n, hr n rfl, rfl⟩
  · -- without neighbours the wire names the parent
    obtain ⟨h1, h2⟩ := Item.absent_iff.1 habs
    exact resolveParent_owner hc.gapless (hit.alone.2 ⟨ho.symm.trans h1, hro.symm.trans h2⟩) hy

theorem trim_rooted (hg : d.store.Gapless) (h : d.Rooted it) {left left' : Option ID} {offset : ℕ}
    (htrim : d.trim it left offset = (d', some (it', left'))) : d'.Rooted it' := by
  obtain ⟨hc, -, hcases⟩ := trim_cases hg htrim
  have h' := h.marks hg hc.marks
  obtain ⟨-, rfl, -⟩ | ⟨-, n, hd, tl, hst, -, -, -, rfl⟩ := hcases it' left' rfl
  · exact h'
  · refine ⟨h'.parent, fun y hy => ?_, h'.right, fun habs => ?_⟩
    · cases hy
      exact ⟨n, hst, rfl⟩
    · cases (Item.absent_iff.1 habs).1

theorem Founded.integrateHead (h : d.Founded) (hg : d.store.Gapless) (hst : st.Decoded)
    (hhead : d.integrateHead st = some d') : d'.Founded := by
  cases st with
  | skip id n =>
    cases hhead
    exact h
  | gc id n =>
    cases turn_of_integrateHead hg hhead with
    | known => exact h
    | gc h1 h2 =>
      refine h.append (.gc ⟨id.client, d.state id.client⟩ _) hg ?_ rfl rfl rfl nofun
      rw [Struct.len_gc]
      omega
  | item it =>
    obtain ⟨-, rfl⟩ | ⟨d₁, it₁, left, right, d₂, r, hres, htrim, -, ⟨-, hc, rfl⟩ |
      ⟨it₂, left₂, rfl, hn, hpar, hd'⟩⟩ := integrateHead_item_cases hg hhead
    · exact h
    · exact h.marks hg hc.marks
    have h₂ : d₂.Founded := h.marks hg hn.cuts.marks
    rcases hd' with ⟨-, rfl⟩ | ⟨p, hp, rfl⟩
    · exact h₂.append (.gc it₂.id it₂.len) hn.cuts.gapless hn.pos rfl hn.state_eq rfl nofun
    · refine h₂.append (.item it₂) hn.cuts.gapless hn.pos rfl hn.state_eq (link_store ..) ?_
      rintro _ ⟨⟩
      have hne : it₁.parent ≠ none := by
        rw [← hpar, hp]
        exact Option.some_ne_none p
      exact trim_rooted (resolve_filled hg hres).1.gapless
        (resolve_rooted hg (hst.2 it rfl) hres hne) htrim

theorem Founded.turns (h : d.Founded) (hg : d.store.Gapless) (ht : Turns d l d')
    (hl : AllDecoded l) : d'.Founded :=
  (ht.invariant hg (fun _ _ he => he.of_store rfl)
    (fun _ st _ hm hg he hst => he.integrateHead hg (hl st hm).1 hst) h).2

/-! ### Updates -/

/-- **Every document that received updates is founded.** -/
theorem replay_founded {bs : List Bytes} (hbs : ∀ b ∈ bs, b.length ≤ maxSafeInteger) :
    (replay bs).Founded :=
  (Stable.replay ⟨.of_store, .turns, .edits⟩ .empty hbs).1

/-- The item refers to a unit of the other one. -/
def RefersTo (d : Doc) (it it' : Item) : Prop :=
  d.Stored it ∧ d.Stored it' ∧ ∃ y ∈ it'.units, it.Names y

/-- **No reference dangles, and none goes in a circle.** Whatever bytes arrive, what a stored item
refers to is in the store where the item needs it, and no item refers to itself through others. -/
theorem references_resolve {bs : List Bytes} (hbs : ∀ b ∈ bs, b.length ≤ maxSafeInteger) :
    (∀ it, (replay bs).Stored it → (replay bs).Rooted it) ∧
      ∀ it, ¬Relation.TransGen (replay bs).RefersTo it it := by
  obtain ⟨hrooted, rank, n, hrank⟩ := replay_founded hbs
  have hg := (replay_regular bs).gapless
  have hdown : ∀ it it', (replay bs).RefersTo it it' → rank it'.id < rank it.id := by
    rintro it it' ⟨hst, hst', y, hy, hn⟩
    refine lt_of_le_of_lt ?_ (hrank.named it y hst hn)
    obtain ⟨hc, hle, -⟩ := Item.mem_units.1 hy
    rcases Nat.eq_or_lt_of_le hle with heq | hlt
    · exact (congrArg rank (ID.ext hc.symm heq)).le
    · rw [show it'.id = ⟨y.client, it'.id.clock⟩ from ID.ext hc.symm rfl]
      exact (hrank.mono _ _ _ hlt (hst'.has hg hy)).le
  have hfar : ∀ it it', Relation.TransGen (replay bs).RefersTo it it' →
      rank it'.id < rank it.id := by
    intro it it' h
    induction h with
    | single h => exact hdown _ _ h
    | tail _ h ih => exact (hdown _ _ h).trans ih
  exact ⟨hrooted, fun it h => lt_irrefl _ (hfar it it h)⟩

/-- Client 1 types `ab`, and client 2 types `c` between the two. -/
def between : List Bytes :=
  [[1, 1, 1, 0, 4, 1, 1, 116, 2, 97, 98, 0], [1, 1, 2, 0, 196, 1, 0, 1, 1, 1, 99, 0]]

/-- The `c` refers to both halves of what was `ab`, and the second half to the first. -/
theorem references_resolve_letters :
    ((∀ it, (replay between).Stored it → (replay between).Rooted it) ∧
      ∀ it, ¬Relation.TransGen (replay between).RefersTo it it) ∧
    ∃ a b c, a.id = ⟨1, 0⟩ ∧ b.id = ⟨1, 1⟩ ∧ c.id = ⟨2, 0⟩ ∧ (replay between).RefersTo c a ∧
      (replay between).RefersTo c b ∧ (replay between).RefersTo b a := by
  refine ⟨references_resolve (by decide), ?_⟩
  have ha : (replay between).Stored ⟨⟨1, 0⟩, none, none, some (.root [116]), false, [],
      .string [97], some (.root [116])⟩ := List.mem_cons_self
  have hb : (replay between).Stored ⟨⟨1, 1⟩, some ⟨1, 0⟩, none, some (.root [116]), false, [],
      .string [98], some (.root [116])⟩ := List.mem_cons_of_mem _ List.mem_cons_self
  have hc : (replay between).Stored ⟨⟨2, 0⟩, some ⟨1, 0⟩, some ⟨1, 1⟩, none, false, [],
      .string [99], some (.root [116])⟩ := List.mem_cons_self
  exact ⟨_, _, _, rfl, rfl, rfl, ⟨hc, ha, ⟨1, 0⟩, by decide, .inl rfl⟩,
    ⟨hc, hb, ⟨1, 1⟩, by decide, .inr (.inl rfl)⟩, hb, ha, ⟨1, 0⟩, by decide, .inl rfl⟩

end Doc

end YCollab.Crdt
