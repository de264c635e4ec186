import YCollab.Crdt.Contains

/-!
# Items that become tombstones

An item whose neighbours are items and whose parent is there is integrated with its content, unless
it refers to the place between the two halves of a surrogate pair: the item there cannot be cut, and
the failure is taken for a neighbour that has been garbage collected. The new item then loses its
parent, and only its clocks are kept (`content_kept_iff`, `emoji_split_collects`).
-/

namespace YCollab.Crdt

open Lib0

namespace Doc

variable {d d' d₁ : Doc} {it it₁ : Item} {x : ID} {bs : List Bytes}

/-- The unit is held by an item. -/
def HasItem (d : Doc) (x : ID) : Prop := ∃ c, d.Stored c ∧ x ∈ c.units

/-- The parent of the item is there: a root type, the type that an item holds, or the parent of a
neighbour. -/
def HasParent (d : Doc) (it : Item) : Prop :=
  match it.wireParent with
  | some (.root _) => True
  | some (.item owner) => ∃ c, d.Stored c ∧ owner ∈ c.units ∧ c.content.isType = true
  | none => ∃ n c, it.origin.or it.rightOrigin = some n ∧ d.Stored c ∧ n ∈ c.units ∧ c.parent ≠ none

/-- The item goes between whole characters. -/
def BetweenCharacters (d : Doc) (it : Item) : Prop :=
  (∀ o, it.origin = some o → ¬d.LowAt o.next) ∧ ∀ r, it.rightOrigin = some r → ¬d.LowAt r

/-- The first `n` units of the item are in items, with the content they have in it. -/
def HoldsContent (d : Doc) (it : Item) (n : ℕ) : Prop :=
  ∀ i < n, d.unitAt (it.unit i) = it.content.unitList[i]?

/-! ### Finding the neighbours and the parent -/

theorem resolveNeighbour_isOk {clean : Doc → ID → Except Err (Doc × Item)} {low : ID → Prop}
    {o : Option ID} (h : ∀ x, o = some x → ((∃ e it, clean d x = .ok (e, it)) ↔ ¬low x)) :
    (∃ r, d.resolveNeighbour clean o = .ok r) ↔ ∀ x, o = some x → ¬low x := by
  cases o with
  | none => simp [resolveNeighbour]
  | some x =>
    simp only [Option.some.injEq, forall_eq', resolveNeighbour, ← h x rfl]
    cases clean d x with
    | error e => simp
    | ok r => exact ⟨fun _ => ⟨r.1, r.2, rfl⟩, fun _ => ⟨_, rfl⟩⟩

theorem HasItem.cuts (h : d.HasItem x) (hc : Cuts d d₁) (hg : d.store.Gapless) : d₁.HasItem x := by
  obtain ⟨c, hst, hx⟩ := h
  obtain ⟨c', hst', hx', -⟩ := hc.marks.exists_piece hg hst hx
  exact ⟨c', hst', hx'⟩

theorem parent_of_neighbour (hg : d.store.Gapless) (hc : Cuts d d₁) {c n : Item} (hst : d.Stored c)
    (hx : x ∈ c.units) (hn : d₁.Stored n) (hxn : x ∈ n.units) : n.parent = c.parent := by
  obtain ⟨c', hst', hp⟩ := hc.pieces n hn
  obtain rfl := hst'.unique hst hg (hp.low hxn).1 hx
  exact hp.parent_eq.1

/-- With its neighbours found, an item whose parent is there gets it. -/
theorem resolveParent_ne_none (hg : d.store.Gapless) (hp : d.HasParent it) (hc : Cuts d d₁)
    {left right : Option Item} (hl : left.map Item.lastID = it.origin)
    (hr : right.map Item.id = it.rightOrigin)
    (hleft : ∀ n, left = some n → ∃ d₀, Cuts d d₀ ∧ d₀.Stored n)
    (hright : ∀ n, right = some n → d₁.Stored n) :
    (d₁.resolveParent it left right).parent ≠ none := by
  unfold HasParent at hp
  unfold resolveParent
  cases hw : it.wireParent with
  | none =>
    simp only [hw] at hp ⊢
    obtain ⟨x, c, hx, hst, hxc, hpar⟩ := hp
    cases left with
    | some n =>
      obtain ⟨d₀, hc₀, hn⟩ := hleft n rfl
      obtain rfl : n.lastID = x := by simpa [← hl] using hx
      have hpos := hn.pos hc₀.gapless
      have hlast : n.lastID ∈ n.units :=
        Item.mem_units.2 ⟨rfl, by simp only [Item.lastID]; omega, by simp only [Item.lastID]; omega⟩
      simp only [Option.some_or]
      rwa [parent_of_neighbour hg hc₀ hst hxc hn hlast]
    | none =>
      cases right with
      | some n =>
        have hn := hright n rfl
        obtain rfl : n.id = x := by simpa [← hl, ← hr] using hx
        simp only [Option.none_or]
        rwa [parent_of_neighbour hg hc hst hxc hn (hn.id_mem_units hc.gapless)]
      | none => simp [← hl, ← hr] at hx
  | some w =>
    cases w with
    | root name => simp
    | item owner =>
      simp only [hw] at hp ⊢
      obtain ⟨c, hst, hx, htype⟩ := hp
      obtain ⟨c', hst', hx', hpiece⟩ := hc.marks.exists_piece hg hst hx
      obtain rfl := piece_eq hpiece (Content.len_of_isType htype)
      obtain ⟨hcl, hlo, hhi⟩ := Item.mem_units.1 hx'
      rw [hc.gapless.getItem_eq (hcl ▸ hst') hlo hhi]
      cases hcont : c'.content with
      | type r name => simp [hcont]
      | _ => rw [hcont] at htype; cases htype

/-- **An item finds its parent exactly if it goes between whole characters**, when its neighbours
are items and its parent is there. -/
theorem resolve_parent (hg : d.store.Gapless) (ho : ∀ x, it.origin = some x → d.HasItem x)
    (hr : ∀ x, it.rightOrigin = some x → d.HasItem x) (hp : d.HasParent it)
    {left right : Option ID} (h : d.resolve it = some (d₁, it₁, left, right)) :
    it₁.parent ≠ none ↔ d.BetweenCharacters it := by
  unfold resolve at h
  split at h
  next => cases h
  have hend : ∀ x, it.origin = some x → _ := fun x hx =>
    (ho x hx).elim fun c hc => cleanEnd_isOk hg hc.1 hc.2
  unfold BetweenCharacters
  rw [← resolveNeighbour_isOk hend]
  split at h
  next e he =>
    -- the origin cannot be cut behind
    cases h
    simp [he]
  next d₂ l hl =>
    obtain ⟨hc₂, -, hlast, hst₂⟩ := resolveNeighbour_end hg hl
    rw [hlast] at h
    simp only at h
    have hstart : ∀ x, it.rightOrigin = some x → _ := fun x hx =>
      ((hr x hx).cuts hc₂ hg).elim fun c hc => cleanStart_isOk hc₂.gapless hc.1 hc.2
    have hlow : (∀ x, it.rightOrigin = some x → ¬d.LowAt x) ↔
        ∃ r, d₂.resolveNeighbour getItemCleanStart it.rightOrigin = .ok r := by
      rw [resolveNeighbour_isOk hstart]
      simp only [hc₂.marks.lowAt_iff hg]
    rw [hlow]
    split at h
    next e he =>
      cases h
      simp [he]
    next d₃ r hr₃ =>
      obtain ⟨hc₃, -, hid, hst₃⟩ := resolveNeighbour_start hc₂.gapless hr₃
      cases h
      refine ⟨fun _ => ⟨⟨_, hl⟩, _, hr₃⟩, fun _ => ?_⟩
      exact resolveParent_ne_none hg hp (hc₂.trans hc₃) hlast hid
        (fun n hn => ⟨d₂, hc₂, hst₂ n hn⟩) hst₃

/-! ### What is integrated -/

/-- If the document holds the units of an item that it has, the item can be cut behind them. -/
theorem HoldsContent.not_drops (hg : d.store.Gapless)
    (h : d.HoldsContent it (d.state it.id.client - it.id.clock)) : ¬d.Drops (.item it) := by
  rintro ⟨h1, h2, hcut⟩
  obtain ⟨n, hn⟩ : ∃ n, d.state it.id.client - it.id.clock = n + 1 :=
    ⟨d.state it.id.client - it.id.clock - 1, by omega⟩
  rw [hn] at h hcut
  have hlast : d.unitAt (it.unit n) = it.content.unitList[n]? := h n (Nat.lt_succ_self n)
  have hclock : (it.unit n).clock + 1 = d.state it.id.client := by
    simp only [Item.unit]
    omega
  rcases hcut with hgc | hlow
  · -- the last unit that the document has is in a GC
    obtain ⟨id, m, hm, hend⟩ := (endsInGC_iff hg _).1 hgc
    have hlen : n < it.content.unitList.length := by
      rw [Content.length_unitList]
      change n < it.len
      omega
    obtain ⟨-, -, hpos, -⟩ := ((List.append_of_mem hm).choose_spec.choose_spec ▸ hg.run _).split
    rw [Struct.len_gc] at hpos
    rw [unitAt_of_gc hg (x := it.unit n) hm (by omega) (by omega), List.getElem?_eq_getElem hlen]
      at hlast
    cases hlast
  · -- the last unit that it has would be the high half of a pair, with nothing behind it
    obtain ⟨v, hv⟩ := Content.lowAt_iff.1 hlow
    obtain ⟨hwide, j, hj, hhigh⟩ := Content.pair_of_code hv
    obtain rfl : n = j := by omega
    obtain ⟨c, hst, hx, hc⟩ := (unitAt_eq_some hg).1 (hlast.trans hhigh)
    obtain ⟨hcl, hlo, hhi⟩ := Item.mem_units.1 hx
    have hnext := (List.getElem?_eq_some_iff.1 (Content.code_low hc hwide)).1
    rw [Content.length_unitList] at hnext
    have hhas : d.Has (it.unit n).next := hst.has hg
      (Item.mem_units.2 ⟨hcl, Nat.le_succ_of_le hlo, by
        change (it.unit n).clock + 1 < c.id.clock + c.content.len
        omega⟩)
    exact absurd hclock (Nat.ne_of_lt hhas)

theorem New.unitList_eq {d₂ : Doc} {it₂ : Item} (h : New d d₂ it it₂) (hx : x ∈ it₂.units) :
    it₂.content.unitList[x.clock - it₂.id.clock]? = it.content.unitList[x.clock - it.id.clock]? := by
  obtain ⟨it', hfill, hp⟩ := h.piece
  rw [hp.unitList_eq hx, hfill.content_eq, hfill.id_eq]

/-- **An item keeps its content exactly if it goes between whole characters**, and if the units that
the document has already are as in the item. Its neighbours are items, and its parent is there. -/
theorem content_kept_iff (hm : Moment bs d) (h : d.integrateHead (.item it) = some d')
    (h1 : it.id.clock ≤ d.state it.id.client) (h2 : d.state it.id.client < it.id.clock + it.len)
    (ho : ∀ x, it.origin = some x → d.HasItem x) (hr : ∀ x, it.rightOrigin = some x → d.HasItem x)
    (hp : d.HasParent it) :
    d'.HoldsContent it it.len ↔
      d.BetweenCharacters it ∧ d.HoldsContent it (d.state it.id.client - it.id.clock) := by
  have hg := hm.gapless
  obtain ⟨d₁, it₁, left, right, d₂, r, hres, -, -, hcases⟩ :=
    (integrateHead_item_cases hg h).resolve_left fun hle => absurd hle.1 (Nat.not_le.2 h2)
  rw [← resolve_parent hg ho hr hp hres]
  obtain ⟨n, hn⟩ : ∃ n, d.state it.id.client = it.id.clock + n :=
    ⟨d.state it.id.client - it.id.clock, by omega⟩
  rw [hn, Nat.add_sub_cancel_left]
  -- the first unit that is new has content in the item
  have hfirst : it.content.unitList[n]? ≠ none := by
    rw [Ne, List.getElem?_eq_none_iff, Content.length_unitList]
    change ¬it.len ≤ n
    omega
  rcases hcases with ⟨hdrop, hc, rfl⟩ | ⟨it₂, left₂, -, hnew, hpar, hd'⟩
  · refine iff_of_false (fun hall => hfirst ?_) fun ⟨_, hpre⟩ => ?_
    · rw [← hall n (by omega)]
      refine unitAt_of_not_has hc.gapless ?_
      unfold Has
      rw [hc.state]
      exact Nat.not_lt.2 hn.le
    · refine HoldsContent.not_drops hg ?_ hdrop
      rwa [hn, Nat.add_sub_cancel_left]
  have hs := hnew.state_eq
  have hg₂ := hnew.cuts.gapless
  have hid := hnew.id
  have hend := hnew.endClock
  rcases hd' with ⟨hnone, rfl⟩ | ⟨p, hsome, rfl⟩
  · refine iff_of_false (fun hall => hfirst ?_) fun ⟨hpar', _⟩ => hpar' (hpar ▸ hnone)
    rw [← hall n (by omega)]
    have happ := StructStore.structs_append (show d₂.store.state (Struct.gc it₂.id it₂.len).id.client
      = _ from hs)
    refine unitAt_of_gc (hg₂.append hnew.pos rfl) (show Struct.gc it₂.id it₂.len ∈ _ from ?_)
      ?_ ?_
    · rw [happ, if_pos (by rw [Struct.id_gc, hid]; rfl)]
      simp
    · rw [hid]
      exact hn.le
    · rw [hend]
      simp only [Item.unit]
      omega
  · have hparent : it₁.parent ≠ none := by
      rw [← hpar, hsome]
      simp
    rw [and_iff_right hparent]
    generalize (if d₂.conflicts left₂ right = true then _ else _) = left
    have hstore := link_store d₂ it₂ p left
    have hg' : (d₂.link it₂ p left).store.Gapless := hstore ▸ hg₂.append hnew.pos rfl
    -- the units that were there stay as they are
    have hold : ∀ i < n, (d₂.link it₂ p left).unitAt (it.unit i) = d.unitAt (it.unit i) :=
      fun i hi => by
        have hhas : d₂.Has (it.unit i) := by
          unfold Has
          rw [hnew.cuts.state]
          simp only [Item.unit]
          omega
        rw [unitAt_append (s := .item it₂) hg₂ hnew.pos rfl hs hstore hhas,
          hnew.cuts.marks.unitAt hg]
    refine ⟨fun hall i hi => (hold i hi).symm.trans (hall i (by omega)), fun hpre i hi => ?_⟩
    by_cases hin : i < n
    · exact (hold i hin).trans (hpre i hin)
    · have hmem : it.unit i ∈ it₂.units := by
        refine Item.mem_units.2 ⟨by rw [hid]; rfl, ?_, ?_⟩
        · rw [hid]
          simp only [Item.unit]
          omega
        · rw [hend]
          simp only [Item.unit]
          omega
      have hst : (d₂.link it₂ p left).Stored it₂ := by
        rw [Stored, hstore, StructStore.structs_append (by exact hs), if_pos (by rfl)]
        simp
      have hlen : i < it.content.unitList.length := by
        rw [Content.length_unitList]
        exact hi
      have hlist := hnew.unitList_eq hmem
      rw [show (it.unit i).clock - it.id.clock = i by simp [Item.unit]] at hlist
      rw [List.getElem?_eq_getElem hlen] at hlist ⊢
      exact (unitAt_eq_some hg').2 ⟨it₂, hst, hmem, hlist⟩

end Doc

/-! ### Typing into an emoji -/

namespace Sample

/-- Client 1 types an emoji into the root type `t`: two units, one character. -/
def emoji : Bytes := [1, 1, 1, 0, 4, 1, 1, 116, 4, 0xF0, 0x9F, 0x98, 0x80, 0]

/-- The item with the pair. -/
def itemEmoji : Item :=
  ⟨⟨1, 0⟩, none, none, some (.root [116]), false, [], .string [0xF0, 0x9F, 0x98, 0x80],
    some (.root [116])⟩

/-- Client 2 types `x` behind the first unit of client 1. -/
def insideEmoji : Bytes := [1, 1, 2, 0, 0x84, 1, 0, 1, 120, 0]

/-- An `x` of client 2 behind unit `k` of client 1. -/
def itemX (k : ℕ) : Item := ⟨⟨2, 0⟩, some ⟨1, k⟩, none, none, false, [], .string [120], none⟩

theorem stored_emoji : (Doc.replay [emoji]).Stored itemEmoji := List.mem_singleton_self _

theorem hasParent_itemX {k : ℕ} (hk : ⟨1, k⟩ ∈ itemEmoji.units) :
    (Doc.replay [emoji]).HasParent (itemX k) :=
  ⟨⟨1, k⟩, itemEmoji, rfl, stored_emoji, hk, by decide⟩

end Sample

/-- Behind an emoji an item keeps its content. -/
theorem content_kept_behind_emoji : ∃ d', (Doc.replay [Sample.emoji]).integrateHead
    (.item (Sample.itemX 1)) = some d' ∧ d'.HoldsContent (Sample.itemX 1) 1 := by
  have hitem : (Doc.replay [Sample.emoji]).HasItem ⟨1, 1⟩ := ⟨_, Sample.stored_emoji, by decide⟩
  have hlow : ¬(Doc.replay [Sample.emoji]).LowAt ⟨1, 2⟩ := by
    rw [Doc.lowAt_iff_isLow (Doc.replay_regular _).gapless]
    decide
  have horigin : ∀ x, (Sample.itemX 1).origin = some x → x = ⟨1, 1⟩ :=
    fun x hx => (Option.some.inj hx).symm
  have hright : ∀ x, (Sample.itemX 1).rightOrigin ≠ some x := nofun
  have hmoment : Doc.Moment [Sample.emoji] (Doc.replay [Sample.emoji]) := .integrating .nil
  refine ⟨_, rfl, (Doc.content_kept_iff hmoment rfl (by decide) (by decide)
    (fun x hx => horigin x hx ▸ hitem) (fun x hx => absurd hx (hright x))
    (Sample.hasParent_itemX (by decide))).2 ⟨⟨fun o ho => ?_, fun r hr => ?_⟩, fun i hi => ?_⟩⟩
  · exact horigin o ho ▸ hlow
  · exact absurd hr (hright r)
  · exact absurd hi (Nat.not_lt_zero i)

/-- An item behind the first half of an emoji is stored as a GC, although its origin is there and its
parent is known. -/
theorem emoji_split_collects :
    decodeUpdate Sample.insideEmoji =
        .ok ⟨[⟨2, 0, [.item (Sample.itemX 0)]⟩], SortedMap.empty⟩ ∧
      (Doc.replay [Sample.emoji]).HasItem ⟨1, 0⟩ ∧
      (Doc.replay [Sample.emoji]).HasParent (Sample.itemX 0) ∧
      (Doc.replay [Sample.emoji, Sample.insideEmoji]).store.structs 2 = [.gc ⟨2, 0⟩ 1] ∧
      ¬(Doc.replay [Sample.emoji, Sample.insideEmoji]).HoldsContent (Sample.itemX 0) 1 := by
  refine ⟨rfl, ⟨_, Sample.stored_emoji, by decide⟩, Sample.hasParent_itemX (by decide), rfl,
    fun h => ?_⟩
  have hnone : (Doc.replay [Sample.emoji, Sample.insideEmoji]).unitAt ⟨2, 0⟩ = none := rfl
  have hx : none = some (ContentUnit.code 120 false) := hnone.symm.trans (h 0 Nat.one_pos)
  cases hx

end YCollab.Crdt
