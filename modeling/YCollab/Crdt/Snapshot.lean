import YCollab.Crdt.Passed
import YCollab.Crdt.Ranks
import YCollab.Crdt.Still

/-!
# A snapshot rebuilds the document

A room stores its document as the update for a peer that has nothing, and a room that loads the
document applies this update to an empty one. Whatever updates the document received, the empty
document then becomes one that contains it (`Doc.snapshot_contains`), as long as the snapshot can be
written at all (`Doc.Writable`).

The structs of the snapshot are those of the store, client by client. While they are integrated, the
new document is a copy of a part of the old one (`Doc.Part`): a struct that has its turn finds what it
refers to where it was (`Doc.Part.turn`). No queue gets stuck before its end, since the struct of
lowest rank that is missing refers to nothing that is missing (`Doc.Part.complete`). The ranges of the
delete set start and end where structs do, so all of it applies (`Doc.cleanRange_snapshot`).
-/

namespace YCollab.Crdt

open Lib0

/-- `st'` is what becomes of the struct `st` when it is sent and integrated again. The parent of an
item may be another one: it is that of its left neighbour. -/
inductive Struct.Copy : Struct → Struct → Prop
  | gc (id : ID) (n : ℕ) : Copy (.gc id n) (.gc id n)
  | item {it it' : Item} : it'.id = it.id → it'.content = it.content.wired → it'.parent ≠ none →
      Copy (.item it) (.item it')

namespace Struct.Copy

variable {st st' : Struct} {it : Item}

theorem id_eq (h : Copy st st') : st'.id = st.id := by
  cases h with
  | gc id n => rfl
  | item hid _ _ => exact hid

theorem len_eq (h : Copy st st') : st'.len = st.len := by
  cases h with
  | gc id n => rfl
  | item _ hc _ => rw [Struct.len_item, Struct.len_item, Item.len, hc, Content.len_wired, Item.len]

theorem endClock_eq (h : Copy st st') : st'.endClock = st.endClock := by
  rw [endClock, endClock, h.id_eq, h.len_eq]

theorem isSkip_eq (h : Copy st st') : st'.isSkip = false := by
  cases h <;> rfl

theorem exists_item (h : Copy (.item it) st') : ∃ it', st' = .item it' ∧ it'.id = it.id ∧
    it'.len = it.len ∧ it'.content = it.content.wired ∧ it'.parent ≠ none := by
  have hlen := h.len_eq
  cases h with
  | @item _ it' hid hc hp => exact ⟨it', rfl, hid, hlen, hc, hp⟩

end Struct.Copy

theorem exists_of_forall₂ {α β : Type*} {R : α → β → Prop} {l : List α} {l' : List β}
    (h : List.Forall₂ R l l') {a : α} (ha : a ∈ l) : ∃ b ∈ l', R a b := by
  induction h with
  | nil => cases ha
  | @cons a₀ b₀ _ _ hab _ ih =>
    rcases List.mem_cons.1 ha with rfl | ha
    · exact ⟨b₀, List.mem_cons_self .., hab⟩
    · obtain ⟨b, hb, hab⟩ := ih ha
      exact ⟨b, List.mem_cons_of_mem _ hb, hab⟩

theorem lengthOf_copy {l l' : List Struct} (h : List.Forall₂ Struct.Copy l l') :
    lengthOf l' = lengthOf l := by
  induction h with
  | nil => rfl
  | cons hst _ ih => rw [lengthOf_cons, lengthOf_cons, ih, hst.len_eq]

namespace Doc

variable {d e e' : Doc} {it : Item} {st : Struct} {x y : ID} {l : List Struct}
  {rank : ID → ℕ} {n : ℕ}

/-! ### Looking up an item where it ends or starts -/

theorem getItemCleanEnd_lastID (hg : d.store.Gapless) (hst : d.Stored it) :
    d.getItemCleanEnd it.lastID = .ok (d, it) := by
  have hpos := hst.pos hg
  obtain ⟨A, B, hs⟩ := List.append_of_mem (show .item it ∈ d.store.structs it.lastID.client from hst)
  have hf : d.store.find it.lastID = .ok A.length := by
    refine hg.find_eq hs ?_ ?_
    · simp only [Item.lastID, Struct.id_item]
      omega
    · simp only [Item.lastID, Struct.endClock_item]
      omega
  have hi : (d.store.structs it.lastID.client)[A.length]? = some (.item it) := by simp [hs]
  have hlen : it.lastID.clock - it.id.clock + 1 = it.len := by
    simp only [Item.lastID]
    omega
  simp [getItemCleanEnd, hf, hi, hlen]

theorem getItemCleanStart_id (hg : d.store.Gapless) (hst : d.Stored it) :
    d.getItemCleanStart it.id = .ok (d, it) := by
  have hpos := hst.pos hg
  obtain ⟨A, B, hs⟩ := List.append_of_mem (show .item it ∈ d.store.structs it.id.client from hst)
  have hf : d.store.find it.id = .ok A.length := by
    refine hg.find_eq hs le_rfl ?_
    rw [Struct.endClock_item]
    omega
  have hi : (d.store.structs it.id.client)[A.length]? = some (.item it) := by simp [hs]
  simp [getItemCleanStart, hf, hi]

/-! ### Parts of a document -/

/-- For each client, `e` has copies of the first structs of `d`. -/
structure Part (d e : Doc) : Prop where
  gapless : e.store.Gapless
  structs : ∀ c, ∃ A B, d.store.structs c = A ++ B ∧
    List.Forall₂ Struct.Copy A (e.store.structs c)

theorem Part.empty (d : Doc) : d.Part Doc.empty where
  gapless := .empty
  structs c := ⟨[], d.store.structs c, rfl, .nil⟩

theorem Part.split (h : d.Part e) (hg : d.store.Gapless) (c : ℕ) :
    ∃ A B, d.store.structs c = A ++ B ∧ List.Forall₂ Struct.Copy A (e.store.structs c) ∧
      Run c 0 A ∧ Run c (e.state c) B ∧ e.state c = lengthOf A := by
  obtain ⟨A, B, hs, hcopy⟩ := h.structs c
  have hstate : e.state c = lengthOf A := (h.gapless.state_eq c).trans (lengthOf_copy hcopy)
  obtain ⟨hA, hB⟩ := run_append.1 (hs ▸ hg.run c)
  rw [Nat.zero_add] at hB
  exact ⟨A, B, hs, hcopy, hA, hstate ▸ hB, hstate⟩

theorem Part.state_le (h : d.Part e) (hg : d.store.Gapless) (c : ℕ) : e.state c ≤ d.state c := by
  obtain ⟨A, B, hs, -, -, -, hstate⟩ := h.split hg c
  rw [hstate, state, hg.state_eq, hs, lengthOf_append]
  exact Nat.le_add_right ..

theorem Part.exists_copy (h : d.Part e) (hg : d.store.Gapless) {c : ℕ}
    (hst : st ∈ d.store.structs c) (hlt : st.id.clock < e.state c) :
    ∃ st' ∈ e.store.structs c, st.Copy st' := by
  obtain ⟨A, B, hs, hcopy, -, hB, -⟩ := h.split hg c
  rw [hs] at hst
  rcases List.mem_append.1 hst with hm | hm
  · exact exists_of_forall₂ hcopy hm
  · exact absurd (hB.clock_ge hm) (Nat.not_le.2 hlt)

theorem Part.whole (h : d.Part e) (hg : d.store.Gapless) {c : ℕ} (hst : st ∈ d.store.structs c) :
    st.endClock ≤ e.state c ∨ e.state c ≤ st.id.clock := by
  obtain ⟨A, B, hs, -, hA, hB, hstate⟩ := h.split hg c
  rw [hs] at hst
  rcases List.mem_append.1 hst with hm | hm
  · refine .inl ?_
    have := hA.endClock_le_end hm
    omega
  · exact .inr (hB.clock_ge hm)

theorem Part.exists_stored (h : d.Part e) (hg : d.store.Gapless) (hst : d.Stored it)
    (hx : x ∈ it.units) (hhas : e.Has x) : ∃ it', e.Stored it' ∧ it'.id = it.id ∧
      it'.len = it.len ∧ it'.content = it.content.wired ∧ it'.parent ≠ none := by
  obtain ⟨hc, hlo, -⟩ := Item.mem_units.1 hx
  have hlt : it.id.clock < e.state it.id.client := by
    unfold Has at hhas
    rw [hc] at hhas
    omega
  obtain ⟨st', hm, hcopy⟩ := h.exists_copy hg hst hlt
  obtain ⟨it', rfl, hid, hrest⟩ := hcopy.exists_item
  exact ⟨it', .of_mem h.gapless hm, hid, hrest⟩

/-- The next struct of a client is copied. -/
theorem Part.append (h : d.Part e) (hg : d.store.Gapless) {c : ℕ} (hst : st ∈ d.store.structs c)
    (hs : e.state c = st.id.clock) {st' : Struct} (hcopy : st.Copy st')
    (hstore : e'.store = e.store.append st') : d.Part e' := by
  obtain ⟨A₀, B₀, hs₀⟩ := List.append_of_mem hst
  obtain ⟨-, -, hpos, -⟩ := (hs₀ ▸ hg.run c).split
  have hclient : st'.id.client = c := by rw [hcopy.id_eq, hg.client_eq hst]
  have hstate : e.store.state st'.id.client = st'.id.clock := by
    rw [hclient, hcopy.id_eq]
    exact hs
  have hpos' : 0 < st'.len := by rwa [hcopy.len_eq]
  refine ⟨hstore ▸ h.gapless.append hpos' hcopy.isSkip_eq, fun c' => ?_⟩
  rw [hstore, StructStore.structs_append hstate]
  split
  next heq =>
    obtain rfl : c' = c := heq.trans hclient
    obtain ⟨A, B, hAB, hA, hrunA, hrunB, hlen⟩ := h.split hg c'
    -- the struct is the first one that is not copied
    have hm : st ∈ B := by
      rw [hAB] at hst
      refine (List.mem_append.1 hst).resolve_left fun hm => ?_
      have := hrunA.endClock_le_end hm
      unfold Struct.endClock at this
      omega
    cases B with
    | nil => cases hm
    | cons b B =>
      have hb : b.id.clock = e.state c' := congrArg ID.clock hrunB.1
      have hbpos := hrunB.2.1
      obtain rfl : b = st := hrunB.cover_unique (List.mem_cons_self ..) hm (k := b.id.clock) le_rfl
        (by unfold Struct.endClock; omega) (by omega) (by unfold Struct.endClock; omega)
      exact ⟨A ++ [b], B, by simp [hAB], List.rel_append hA (.cons hcopy .nil)⟩
  next => exact h.structs c'

/-! ### One turn -/

theorem has_of_not_missing {id : ID} (h : d.missing id (some y) = false)
    (hy : y.client ≠ id.client) : d.Has y := by
  have h' : ¬(y.client ≠ id.client ∧ y.clock ≥ d.state y.client) := by
    simpa [missing] using h
  exact Nat.lt_of_not_le fun hle => h' ⟨hy, hle⟩

theorem ownerID_wired (habs : it.absent = true) (hp : it.parent = some (.nested y)) :
    ownerID it.wired = some y := by
  simp [ownerID, Item.wired, habs, Item.parentInfo, hp]

theorem Ranked.clock_lt (h : d.Ranked rank n) (hst : d.Stored it) (hn : it.Names y)
    (hy : d.Has y) (hc : y.client = it.id.client) : y.clock < it.id.clock := by
  by_contra hge
  have hlt := h.named it y hst hn
  have hyeq : y = ⟨it.id.client, y.clock⟩ := ID.ext hc rfl
  rcases (Nat.le_of_not_lt hge).lt_or_eq with hlt' | heq
  · have := h.mono it.id.client it.id.clock y.clock hlt' (hyeq ▸ hy)
    rw [← hyeq] at this
    exact absurd (hlt.trans this) (lt_irrefl _)
  · rw [show y = it.id from ID.ext hc heq.symm] at hlt
    exact lt_irrefl _ hlt

theorem Ranked.has_named (h : d.Ranked rank n) (hst : d.Stored it) (hroot : d.Rooted it)
    (hg : d.store.Gapless) (hstate : e.state it.id.client = it.id.clock) (hk : e.Known it.wired)
    (hn : it.Names y) : e.Has y := by
  by_cases hc : y.client = it.id.client
  · have hlt := h.clock_lt hst hn (hroot.has hg hn) hc
    unfold Has
    rw [hc]
    omega
  · obtain ⟨ho, hr, hw⟩ := hk
    rcases hn with hn | hn | ⟨habs, hn⟩
    · rw [show it.wired.origin = some y from hn] at ho
      exact has_of_not_missing ho hc
    · rw [show it.wired.rightOrigin = some y from hn] at hr
      exact has_of_not_missing hr hc
    · rw [ownerID_wired habs hn] at hw
      exact has_of_not_missing hw hc

theorem Part.resolveLeft (h : d.Part e) (hg : d.store.Gapless) (hroot : d.Rooted it)
    (hhas : ∀ y, it.Names y → e.Has y) : ∃ left : Option Item,
      e.resolveNeighbour getItemCleanEnd it.origin = .ok (e, left) ∧
      left.map Item.lastID = it.origin ∧ ∀ l, left = some l → l.parent ≠ none := by
  cases ho : it.origin with
  | none => exact ⟨none, rfl, rfl, nofun⟩
  | some y =>
    obtain ⟨l, hl, rfl⟩ := hroot.origin y ho
    have hpos := hl.pos hg
    have hmem : l.lastID ∈ l.units := Item.mem_units.2
      ⟨rfl, by simp only [Item.lastID]; omega, by simp only [Item.lastID]; omega⟩
    obtain ⟨l', hl', hid, hlen, -, hp⟩ := h.exists_stored hg hl hmem (hhas _ (.inl ho))
    have hlast : l'.lastID = l.lastID := by rw [Item.lastID, Item.lastID, hid, hlen]
    refine ⟨some l', ?_, by simp [hlast], fun _ heq => Option.some.inj heq ▸ hp⟩
    rw [← hlast]
    simp [resolveNeighbour, getItemCleanEnd_lastID h.gapless hl']

theorem Part.resolveRight (h : d.Part e) (hg : d.store.Gapless) (hroot : d.Rooted it)
    (hhas : ∀ y, it.Names y → e.Has y) : ∃ right : Option Item,
      e.resolveNeighbour getItemCleanStart it.rightOrigin = .ok (e, right) ∧
      right.map Item.id = it.rightOrigin ∧ ∀ r, right = some r → r.parent ≠ none := by
  cases hr : it.rightOrigin with
  | none => exact ⟨none, rfl, rfl, nofun⟩
  | some y =>
    obtain ⟨r, hst, rfl⟩ := hroot.right y hr
    obtain ⟨r', hr', hid, -, -, hp⟩ :=
      h.exists_stored hg hst (hst.id_mem_units hg) (hhas _ (.inr (.inl hr)))
    refine ⟨some r', ?_, by simp [hid], fun _ heq => Option.some.inj heq ▸ hp⟩
    rw [← hid]
    simp [resolveNeighbour, getItemCleanStart_id h.gapless hr']

/-- The parent is found: the wire names it, or a neighbour has one. -/
theorem Part.resolveParent (h : d.Part e) (hg : d.store.Gapless) (hroot : d.Rooted it)
    (hhas : ∀ y, it.Names y → e.Has y) {left right : Option Item}
    (hleft : left.map Item.lastID = it.origin) (hlp : ∀ l, left = some l → l.parent ≠ none)
    (hright : right.map Item.id = it.rightOrigin) (hrp : ∀ r, right = some r → r.parent ≠ none) :
    ∃ p, (e.resolveParent it.wired left right).parent = some p := by
  unfold Doc.resolveParent
  cases habs : it.absent with
  | true =>
    have hw : it.wired.wireParent = some it.parentInfo := by simp [Item.wired, habs]
    cases hp : it.parent with
    | none => exact absurd hp hroot.parent
    | some p =>
      cases p with
      | root name =>
        rw [hw, show it.parentInfo = .root name by simp [Item.parentInfo, hp]]
        exact ⟨_, rfl⟩
      | nested o =>
        obtain ⟨t, ht, rfl, htype⟩ := hroot.owner habs o hp
        obtain ⟨t', ht', hid, hlen, hcont, -⟩ := h.exists_stored hg ht (ht.id_mem_units hg)
          (hhas _ (.inr (.inr ⟨habs, hp⟩)))
        have hpos := ht'.pos h.gapless
        have hget : e.store.getItem t.id = .ok t' := by
          rw [← hid]
          exact h.gapless.getItem_eq ht' le_rfl (by omega)
        have htype' : t'.content.isType = true := by rwa [hcont, Content.isType_wired]
        rw [hw, show it.parentInfo = .item t.id by simp [Item.parentInfo, hp]]
        simp only [hget]
        cases hc : t'.content with
        | type ref name => exact ⟨_, rfl⟩
        | _ => simp [hc, Content.isType] at htype'
  | false =>
    have hw : it.wired.wireParent = none := by simp [Item.wired, habs]
    have hor : ∃ m, left.or right = some m ∧ m.parent ≠ none := by
      cases left with
      | some l => exact ⟨l, rfl, hlp l rfl⟩
      | none =>
        cases right with
        | some r => exact ⟨r, rfl, hrp r rfl⟩
        | none => simp [Item.absent, ← hleft, ← hright] at habs
    obtain ⟨m, hm, hp⟩ := hor
    rw [hw]
    simp only [hm]
    exact Option.ne_none_iff_exists'.1 hp

/-- An item that has its turn is stored as it was, without a cut. -/
theorem Part.item_turn (h : d.Part e) (hg : d.store.Gapless) (hr : d.Ranked rank n)
    (hst : d.Stored it) (hroot : d.Rooted it) (hstate : e.state it.id.client = it.id.clock)
    (hturn : e.integrateHead (.item it.wired) = some e') :
    ∃ it', Struct.Copy (.item it) (.item it') ∧ e'.store = e.store.append (.item it') := by
  have hpos := hst.pos hg
  have hlen : it.wired.len = it.len := it.len_wired
  rw [integrateHead_item, if_neg (by rw [Item.id_wired]; omega),
    if_neg (by rw [Item.id_wired, hlen]; omega)] at hturn
  obtain ⟨⟨e₁, it₁, left₁, right₁⟩, hres, heq⟩ := Option.map_eq_some_iff.1 hturn
  have hk : e.Known it.wired := by
    by_contra hk
    rw [resolve_eq_none.2 hk] at hres
    cases hres
  have hhas : ∀ y, it.Names y → e.Has y := fun y hn => hr.has_named hst hroot hg hstate hk hn
  obtain ⟨left, hl, hlast, hlp⟩ := h.resolveLeft hg hroot hhas
  obtain ⟨right, hr', hid, hrp⟩ := h.resolveRight hg hroot hhas
  obtain ⟨p, hp⟩ := h.resolveParent hg hroot hhas hlast hlp hid hrp
  have hfill := (resolve_filled h.gapless hres).2.2
  have hfields : { it.wired with origin := left.map Item.lastID } = it.wired := by
    rw [hlast]
    rfl
  obtain ⟨hk₁, hk₂, hk₃⟩ := hk
  unfold resolve at hres
  rw [hk₁, hk₂, hk₃, if_neg (by simp), show it.wired.origin = it.origin from rfl, hl] at hres
  simp only [hfields] at hres
  rw [show it.wired.rightOrigin = it.rightOrigin from rfl, hr'] at hres
  cases hres
  refine ⟨_, .item hfill.id_eq hfill.content_eq (by simp [hp]), ?_⟩
  rw [← heq, Item.id_wired, hstate, Nat.sub_self]
  simp only [integrateItem, trim, if_true, hp]
  exact link_store ..

/-- The turn of a struct of `d`: it is copied, if it is not there. -/
theorem Part.turn (h : d.Part e) (hg : d.store.Gapless) (hf : d.Founded) {c : ℕ}
    (hst : st ∈ d.store.structs c) (hturn : e.integrateHead st.wired = some e') :
    d.Part e' ∧ st.endClock ≤ e'.state c := by
  have hclient : st.id.client = c := hg.client_eq hst
  obtain ⟨rank, n, hr⟩ := hf.ranked
  rcases h.whole hg hst with hdone | hle
  · -- there is nothing new in it
    have hdone' : e.Done st.wired := by
      refine .inr ?_
      rwa [Struct.endClock, Struct.id_wired, Struct.len_wired, hclient]
    rcases outcome h.gapless hturn with ⟨-, rfl⟩ | ⟨hnot, -⟩ | ⟨hdrop, -⟩
    · exact ⟨h, hdone⟩
    · exact absurd hdone' hnot
    · exact absurd hdone' hdrop.not_done
  have hnb : ¬e.Blocked st.wired := fun hb => by
    rw [integrateHead_eq_none.2 hb] at hturn
    cases hturn
  obtain ⟨A, B, hs⟩ := List.append_of_mem hst
  obtain ⟨-, -, hpos, hskip, -⟩ := (hs ▸ hg.run c).split
  have hcopy : e.state c = st.id.clock → ∃ st', st.Copy st' ∧ e'.store = e.store.append st' := by
    intro hstate
    cases st with
    | skip id n => cases hskip
    | gc id n =>
      obtain rfl : id.client = c := hclient
      simp only [Struct.id_gc, Struct.len_gc] at hstate hpos
      rw [show (Struct.gc id n).wired = .gc id n from rfl, integrateHead_gc,
        if_neg (by omega), if_neg (by omega)] at hturn
      cases hturn
      refine ⟨_, .gc id n, ?_⟩
      rw [hstate, Nat.add_sub_cancel_left]
    | item it =>
      obtain rfl : it.id.client = c := hclient
      obtain ⟨it', hcopy, hstore⟩ := h.item_turn hg hr hst (hf.rooted it hst) hstate hturn
      exact ⟨_, hcopy, hstore⟩
  have hstate : e.state c = st.id.clock := by
    refine le_antisymm hle (Nat.le_of_not_lt fun hlt => hnb ?_)
    subst hclient
    cases st with
    | skip id n => cases hskip
    | gc id n => exact hlt
    | item it => exact .inl hlt
  obtain ⟨st', hcopy, hstore⟩ := hcopy hstate
  refine ⟨h.append hg hst hstate hcopy hstore, ?_⟩
  have hid : st'.id.client = c := by rw [hcopy.id_eq, hclient]
  rw [state, hstore, h.gapless.state_append (by rwa [hcopy.len_eq]) hcopy.isSkip_eq
    (by rw [hid, hcopy.id_eq]; exact hstate), if_pos hid.symm, hcopy.endClock_eq]

/-! ### No queue gets stuck -/

/-- What an item that is held back waits for is named by it and missing. -/
theorem exists_missing (hk : ¬e.Known it.wired) (hroot : d.Rooted it) :
    ∃ y, it.Names y ∧ y.client ≠ it.id.client ∧ e.state y.client ≤ y.clock := by
  have hmissing : ∀ o, e.missing it.id o = true →
      ∃ y, o = some y ∧ y.client ≠ it.id.client ∧ e.state y.client ≤ y.clock := by
    intro o ho
    cases o with
    | none => cases ho
    | some y => exact ⟨y, rfl, by simpa [missing] using ho⟩
  have hsome : e.missing it.id it.origin = true ∨ e.missing it.id it.rightOrigin = true ∨
      e.missing it.id (ownerID it.wired) = true := by
    by_contra hnone
    simp only [not_or, Bool.not_eq_true] at hnone
    exact hk hnone
  rcases hsome with hm | hm | hm
  · obtain ⟨y, hy, h⟩ := hmissing _ hm
    exact ⟨y, .inl hy, h⟩
  · obtain ⟨y, hy, h⟩ := hmissing _ hm
    exact ⟨y, .inr (.inl hy), h⟩
  · obtain ⟨y, hy, h⟩ := hmissing _ hm
    refine ⟨y, .inr (.inr ?_), h⟩
    unfold ownerID Item.wired at hy
    cases habs : it.absent with
    | false => simp [habs] at hy
    | true =>
      refine ⟨rfl, ?_⟩
      cases hp : it.parent with
      | none => exact absurd hp hroot.parent
      | some p =>
        cases p with
        | root name => simp [habs, Item.parentInfo, hp] at hy
        | nested o =>
          simp only [habs, Item.parentInfo, hp, if_true, Option.some.injEq] at hy
          rw [hy]

/-- If the next struct of every client has to wait, there is none: the one of lowest rank would
wait for another of lower rank. -/
theorem Part.complete (h : d.Part e) (hg : d.store.Gapless) (hf : d.Founded)
    (hwait : ∀ c, ∀ st ∈ d.store.structs c, st.id.clock = e.state c → e.Blocked st.wired) (c : ℕ) :
    e.state c = d.state c := by
  obtain ⟨rank, n, hr⟩ := hf.ranked
  -- induction on the rank of the first unit that is missing
  suffices hind : ∀ k c, rank ⟨c, e.state c⟩ = k → ¬e.state c < d.state c from
    le_antisymm (h.state_le hg c) (Nat.le_of_not_lt (hind _ c rfl))
  intro k
  induction k using Nat.strong_induction_on with
  | _ k ih =>
    intro c hk hlt
    let x : ID := ⟨c, e.state c⟩
    obtain ⟨A, st, B, hs, hlo, hhi⟩ := hg.exists_cover (show x.clock < d.store.state x.client from hlt)
    have hst : st ∈ d.store.structs c := by
      rw [show d.store.structs c = A ++ st :: B from hs]
      simp
    have hclock : st.id.clock = e.state c := by
      rcases h.whole hg hst with hdone | hge
      · exact absurd hhi (Nat.not_lt.2 hdone)
      · exact le_antisymm hlo hge
    have hclient : st.id.client = c := hg.client_eq hst
    have hblocked := hwait c st hst hclock
    cases st with
    | skip id n =>
      have hskip := (hs ▸ hg.run c).split.2.2.2.1
      cases hskip
    | gc id n =>
      have hb : e.state id.client < id.clock := hblocked
      rw [show id.client = c from hclient] at hb
      exact absurd hb (Nat.not_lt.2 hclock.le)
    | item it =>
      obtain rfl : it.id.client = c := hclient
      have hroot := hf.rooted it hst
      rcases hblocked with hb | ⟨-, hk'⟩
      · exact absurd hb (Nat.not_lt.2 hclock.le)
      · obtain ⟨y, hn, -, hge⟩ := exists_missing hk' hroot
        have hy : d.Has y := hroot.has hg hn
        refine ih _ ?_ y.client rfl (lt_of_le_of_lt hge hy)
        have hle : rank ⟨y.client, e.state y.client⟩ ≤ rank y := by
          rcases hge.lt_or_eq with hlt' | heq
          · exact (hr.mono y.client _ y.clock hlt' hy).le
          · rw [heq]
        refine hle.trans_lt ((hr.named it y hst hn).trans_eq ?_)
        rw [← hk]
        exact congrArg rank (ID.ext rfl hclock)

/-! ### The snapshot -/

/-- The update a receiver reads for the whole of a document. -/
def snapshotUpdate (d : Doc) : Update := (d.stateAsUpdate SortedMap.empty).sent.wired

theorem mem_snapshotUpdate (hg : d.store.Gapless) {blk : ClientBlock} :
    blk ∈ d.snapshotUpdate.clients ↔
      ∃ c, 0 < d.state c ∧ blk = ⟨c, 0, (d.store.structs c).map Struct.wired⟩ := by
  simp only [snapshotUpdate, Update.wired, List.mem_map, (Update.sortBlocks_perm _).mem_iff,
    mem_sent hg]
  constructor
  · rintro ⟨blk, ⟨c, hpos, hblk⟩, rfl⟩
    obtain rfl := Option.some.inj ((sent_blockFrom_zero hg hpos).symm.trans hblk)
    exact ⟨c, hpos, rfl⟩
  · rintro ⟨c, hpos, rfl⟩
    exact ⟨_, ⟨c, hpos, sent_blockFrom_zero hg hpos⟩, rfl⟩

theorem Part.moves (hm : Moves e l e') (h : d.Part e) (hg : d.store.Gapless) (hf : d.Founded)
    (hl : ∀ st' ∈ l, ∃ c, ∃ st ∈ d.store.structs c, st.wired = st') :
    d.Part e' ∧ ∀ st' ∈ l, e'.Done st' := by
  induction hm with
  | nil => exact ⟨h, nofun⟩
  | @step l st' e₁ e₂ _ hst ih =>
    obtain ⟨h₁, hdone⟩ := ih fun st' hst' => hl st' (List.mem_append_left _ hst')
    obtain ⟨c, st, hmem, rfl⟩ := hl st' (by simp)
    obtain ⟨h₂, hend⟩ := h₁.turn hg hf hmem hst
    refine ⟨h₂, fun st'' hst'' => ?_⟩
    rcases List.mem_append.1 hst'' with hm | hm
    · exact (hdone st'' hm).mono ((turn_of_integrateHead h₁.gapless hst).state_mono h₁.gapless)
    · obtain rfl := List.mem_singleton.1 hm
      refine .inr ?_
      rwa [Struct.endClock, Struct.id_wired, Struct.len_wired, hg.client_eq hmem]

/-- **All of the snapshot is integrated**, as a copy of the document. -/
theorem integrate_snapshot (hg : d.store.Gapless) (hf : d.Founded) :
    d.Part (Doc.empty.integrate d.snapshotUpdate) ∧
      ∀ c, (Doc.empty.integrate d.snapshotUpdate).state c = d.state c := by
  have hneat : d.snapshotUpdate.Neat := d.neat_stateAsUpdate _
  obtain ⟨l, rest, e, hm, htaken, hwait, -, heq⟩ :=
    integrate_spec (d := Doc.empty) .empty d.snapshotUpdate
  rw [gather_of_neat hneat] at htaken
  have hqueue : ∀ q ∈ d.snapshotUpdate.clients.map fun b => (b.client, b.structs),
      ∃ c, q = (c, (d.store.structs c).map Struct.wired) := by
    intro q hq
    obtain ⟨blk, hblk, rfl⟩ := List.mem_map.1 hq
    obtain ⟨c, -, rfl⟩ := (mem_snapshotUpdate hg).1 hblk
    exact ⟨c, rfl⟩
  obtain ⟨hpart, hdone⟩ := Part.moves hm (.empty d) hg hf fun st' hst' => by
    obtain ⟨q, hq, hst'⟩ := (htaken.mem st').2 (.inl hst')
    obtain ⟨c, rfl⟩ := hqueue q hq
    obtain ⟨st, hst, rfl⟩ := List.mem_map.1 hst'
    exact ⟨c, st, hst, rfl⟩
  -- what is held back is not in the store
  suffices hall : ∀ c, e.state c = d.state c by
    rw [heq]
    exact ⟨⟨hpart.gapless, hpart.structs⟩, hall⟩
  refine hpart.complete hg hf fun c st hst hclock => ?_
  have hpos : 0 < st.len := by
    obtain ⟨A, B, hs⟩ := List.append_of_mem hst
    exact (hs ▸ hg.run c).split.2.2.1
  have hstate : 0 < d.state c := by
    have hend := (hg.run c).endClock_le_end hst
    rw [state, hg.state_eq]
    unfold Struct.endClock at hend
    omega
  have hmem : st.wired ∈ (d.store.structs c).map Struct.wired := List.mem_map_of_mem hst
  have hblk := (mem_snapshotUpdate hg).2 ⟨c, hstate, rfl⟩
  rcases (htaken.mem st.wired).1 ⟨_, List.mem_map_of_mem hblk, hmem⟩ with hl | ⟨q, hq, hm'⟩
  · -- it had its turn, so its clocks are there
    rcases hdone _ hl with hskip | hend
    · obtain ⟨A, B, hs⟩ := List.append_of_mem hst
      have hnot := (hs ▸ hg.run c).split.2.2.2.1
      cases st with
      | skip id n => cases hnot
      | gc id n => cases hskip
      | item it => cases hskip
    · rw [Struct.endClock, Struct.id_wired, Struct.len_wired, hg.client_eq hst] at hend
      omega
  · -- it is in a queue, and the head of that queue waits
    obtain ⟨q₀, hq₀, -, t, ht⟩ := htaken.suffix q hq
    obtain ⟨c', rfl⟩ := hqueue q₀ hq₀
    obtain ⟨A, B, hs, -, hB⟩ := List.map_eq_append_iff.1 ht.symm
    obtain ⟨st₁, hst₁, heq₁⟩ := List.mem_map.1 (hB ▸ hm')
    have hid : st₁.id = st.id := by rw [← Struct.id_wired st₁, heq₁, Struct.id_wired]
    have hst₁' : st₁ ∈ d.store.structs c' := by simp [hs, hst₁]
    obtain rfl : c' = c := by rw [← hg.client_eq hst₁', hid, hg.client_eq hst]
    cases B with
    | nil => cases hst₁
    | cons b B =>
      have hb : b ∈ d.store.structs c' := by simp [hs]
      have hblocked : e.Blocked b.wired := hwait q hq b.wired (by simp [← hB])
      have hrun := (run_append.1 (hs ▸ hg.run c')).2
      have hle : b.id.clock ≤ st₁.id.clock := by
        rw [show b.id.clock = _ from congrArg ID.clock hrun.1]
        exact hrun.clock_ge hst₁
      rw [hid] at hle
      rcases hpart.whole hg hb with hend | hge
      · refine absurd hblocked (Done.not_blocked (.inr ?_))
        rwa [Struct.endClock, Struct.id_wired, Struct.len_wired, hg.client_eq hb]
      · have hbpos := hrun.2.1
        obtain rfl := (hg.run c').cover_unique hb hst (k := e.state c') (by omega)
          (by unfold Struct.endClock; omega) (by omega) (by unfold Struct.endClock; omega)
        exact hblocked

/-! ### Deletions -/

/-- The ranges of what is told to be deleted start and end where structs do. -/
theorem Regular.not_lowAt_range (h : d.Regular) {c : ℕ} {r : DeleteRange}
    (hr : r ∈ d.deleteSetForUpdate.ranges c) : d.CleanRange c r := by
  obtain ⟨hbuilt, hnames⟩ := d.deleteSetForUpdate_spec
  have hcanon := hbuilt.ranges c
  have hpos := hcanon.pos r hr
  have hgone : ∀ k, d.Has ⟨c, k⟩ → (Crdt.Covers (d.deleteSetForUpdate.ranges c) k ↔ d.Gone ⟨c, k⟩) := by
    intro k hhas
    refine (hnames ⟨c, k⟩).trans (or_iff_left fun hp => ?_)
    exact h.rest.ahead hp hhas
  -- the unit before the low half of a pair is deleted if and only if the low half is
  have hpair : ∀ k, d.LowAt ⟨c, k⟩ → ∃ j, k = j + 1 ∧
      (Crdt.Covers (d.deleteSetForUpdate.ranges c) j ↔
        Crdt.Covers (d.deleteSetForUpdate.ranges c) k) := by
    rintro k ⟨it, hst, hx, hlow⟩
    obtain ⟨hc, hlo, hhi⟩ := Item.mem_units.1 hx
    simp only at hc hlo hhi hlow
    have hne : k ≠ it.id.clock := by
      rintro rfl
      rw [Nat.sub_self, Content.lowAt_zero] at hlow
      cases hlow
    have hx' : ⟨c, k - 1⟩ ∈ it.units :=
      Item.mem_units.2 ⟨hc, by simp only; omega, by simp only; omega⟩
    refine ⟨k - 1, by omega, ?_⟩
    rw [hgone _ (hst.has h.gapless hx'), hgone _ (hst.has h.gapless hx),
      hst.gone_iff h.gapless hx', hst.gone_iff h.gapless hx]
  obtain ⟨hend, hstart⟩ := hcanon.not_covers hr
  refine ⟨fun hlow => ?_, fun hlow => ?_⟩
  · obtain ⟨j, hj, hiff⟩ := hpair _ hlow
    refine hstart j hj (hiff.2 ⟨r, hr, le_rfl, ?_⟩)
    unfold DeleteRange.endClock
    omega
  · obtain ⟨j, hj, hiff⟩ := hpair _ hlow
    refine hend (hiff.1 ⟨r, hr, ?_, by omega⟩)
    unfold DeleteRange.endClock at hj
    omega

theorem Part.exists_original (h : d.Part e) (hg : d.store.Gapless) {it' : Item}
    (hst' : e.Stored it') : ∃ it, d.Stored it ∧ it'.id = it.id ∧ it'.len = it.len ∧
      it'.content = it.content.wired := by
  obtain ⟨A, B, hs, hcopy⟩ := h.structs it'.id.client
  obtain ⟨st, hm, hst⟩ := exists_of_forall₂ (R := fun st' st => Struct.Copy st st') hcopy.flip hst'
  have hlen := hst.len_eq
  cases hst with
  | @item it _ hid hc _ => exact ⟨it, .of_mem hg (hs ▸ List.mem_append_left _ hm), hid, hlen, hc⟩

theorem Part.lowAt (h : d.Part e) (hg : d.store.Gapless) (hlow : e.LowAt x) : d.LowAt x := by
  obtain ⟨it', hst', hx, hlow⟩ := hlow
  obtain ⟨it, hst, hid, hlen, hc⟩ := h.exists_original hg hst'
  refine ⟨it, hst, ?_, ?_⟩
  · rw [Item.mem_units] at hx ⊢
    rwa [hid, hlen] at hx
  · rwa [hid, hc, Content.lowAt_wired] at hlow

theorem Part.unitAt (h : d.Part e) (hg : d.store.Gapless) (hstate : ∀ c, e.state c = d.state c)
    {v : ContentUnit} (hv : d.unitAt x = some v) : e.unitAt x = some v.wired := by
  obtain ⟨it, hst, hx, hv⟩ := (unitAt_eq_some hg).1 hv
  have hhas : e.Has x := (hst.has hg hx).trans_eq (hstate _).symm
  obtain ⟨it', hst', hid, hlen, hc, -⟩ := h.exists_stored hg hst hx hhas
  refine (unitAt_eq_some h.gapless).2 ⟨it', hst', ?_, ?_⟩
  · rw [Item.mem_units] at hx ⊢
    rwa [hid, hlen]
  · rw [hid, hc, Content.unitList_wired, List.getElem?_map, hv, Option.map_some]

/-- **The snapshot rebuilds the document**: a document that contains it. -/
theorem apply_snapshot (hr : d.Regular) (hf : d.Founded) :
    (Doc.empty.applyDecodedUpdate d.snapshotUpdate).Contains d := by
  obtain ⟨hpart, hstate⟩ := integrate_snapshot hr.gapless hf
  obtain ⟨l, l', hph⟩ := Regular.empty.phases d.snapshotUpdate
  set e := Doc.empty.integrate d.snapshotUpdate with he
  have hclean : ∀ p ∈ d.snapshotUpdate.deletes.entries, ∀ r ∈ p.2, e.CleanRange p.1 r := by
    rintro ⟨c, rs⟩ hp r hrs
    have hfind : d.deleteSetForUpdate.find? c = some rs := SortedMap.find?_eq_some.2 hp
    have hmem : r ∈ d.deleteSetForUpdate.ranges c := by
      rw [DeleteSet.ranges, hfind]
      exact hrs
    obtain ⟨h1, h2⟩ := hr.not_lowAt_range hmem
    exact ⟨fun hlow => h1 (hpart.lowAt hr.gapless hlow),
      fun hlow => h2 (hpart.lowAt hr.gapless hlow)⟩
  have hm := hph.marked.edits.marks hpart.gapless
  have hmarked : (Doc.empty.marked d.snapshotUpdate).Contains d := by
    have hedit := hm.contains hpart.gapless
    refine ⟨fun c => (hstate c).ge.trans (hedit.state c), fun x v hv => ?_, fun x hx => ?_⟩
    · obtain ⟨v', hv', heq⟩ := hedit.content x _ (hpart.unitAt hr.gapless hstate hv)
      exact ⟨v', hv', heq.trans v.wired_wired⟩
    · refine (applyDeleteSet_gone hpart.gapless hclean x).2 (.inr ⟨?_, ?_⟩)
      · exact (d.deleteSetForUpdate_spec.2 x).2 (.inl hx)
      · exact (hx.has hr.gapless).trans_eq (hstate _).symm
  exact (hph.contains_marked hpart.gapless).trans hmarked

/-! ### Writing it -/

/-- The document is within the limits of the format: its clocks, the number of its clients, and the
runs of what is deleted. -/
structure Writable (d : Doc) : Prop where
  state : ∀ c, d.state c ≤ maxSafeInteger
  clients : d.store.keys.length ≤ maxSafeInteger
  gcs : ∀ c id n, .gc id n ∈ d.store.structs c → n ≤ maxLen
  deletes : DeleteSet.Safe d.deleteSetForUpdate

/-- How much a GC struct stands for. -/
def gcLen : Struct → ℕ
  | .gc _ n => n
  | _ => 0

theorem writable_iff : d.Writable ↔
    (∀ p ∈ d.store.entries, stateOf p.2 ≤ maxSafeInteger ∧ ∀ st ∈ p.2, gcLen st ≤ maxLen) ∧
      d.store.keys.length ≤ maxSafeInteger ∧ DeleteSet.Safe d.deleteSetForUpdate := by
  constructor
  · intro h
    refine ⟨fun p hp => ?_, h.clients, h.deletes⟩
    have hstructs : d.store.structs p.1 = p.2 := by
      rw [StructStore.structs, SortedMap.find?_eq_some.2 hp, Option.getD_some]
    constructor
    · rw [← hstructs]
      exact h.state p.1
    · intro st hst
      cases st with
      | gc id n => exact h.gcs p.1 id n (hstructs ▸ hst)
      | skip id n => exact Nat.zero_le _
      | item it => exact Nat.zero_le _
  · rintro ⟨hall, hclients, hdeletes⟩
    have hstructs : ∀ c, d.store.structs c = [] ∨ (c, d.store.structs c) ∈ d.store.entries := by
      intro c
      cases hfind : d.store.find? c with
      | none => exact .inl (by rw [StructStore.structs, hfind, Option.getD_none])
      | some l =>
        rw [StructStore.structs, hfind]
        exact .inr (SortedMap.find?_eq_some.1 hfind)
    refine ⟨fun c => ?_, hclients, fun c id n hmem => ?_, hdeletes⟩
    · rcases hstructs c with hnil | hmem
      · rw [state, StructStore.state, hnil]
        exact Nat.zero_le _
      · exact (hall _ hmem).1
    · rcases hstructs c with hnil | hin
      · rw [hnil] at hmem
        cases hmem
      · exact (hall _ hin).2 _ hmem

instance (d : Doc) : Decidable d.Writable := decidable_of_iff _ writable_iff.symm

/-- **A document within the limits of the format is rebuilt from its snapshot.** -/
theorem snapshot_contains (hr : d.Regular) (hl : d.Legible) (hf : d.Founded) (hw : d.Writable) :
    ∃ b u, d.encodeStateAsUpdate SortedMap.empty = .ok b ∧ decodeUpdate b = .ok u ∧
      (Doc.empty.applyDecodedUpdate u).Contains d := by
  have hsafe := hl.sent_safe hr.gapless hw.state hw.clients hw.gcs hw.deletes SortedMap.empty
  refine ⟨_, _, ?_, decodeUpdate_enc hsafe, apply_snapshot hr hf⟩
  rw [encodeStateAsUpdate, ← Update.encode_sent, Update.encode_eq hsafe.printed]

end Doc

end YCollab.Crdt
