import YCollab.Crdt.Edits
import YCollab.Crdt.Queue
import YCollab.Data.Weave

/-!
# Lists of arbitrary documents

A document that received arbitrary updates need not have one list for each type and key: an update
may send the rest of an item whose first units other updates put elsewhere, and the rest is then
linked after them. What stays is that its items are woven (`Doc.Woven`): no walk along their links
ever returns to where it has been. So the walks of the source end, and the bounds that the model has
on them are no restriction (`Doc.Woven.path`, `Doc.Woven.leftmost`).
-/

namespace YCollab.Crdt

open Links

namespace Doc

variable {d d' : Doc} {ord : List ID} {it it' : Item} {x : ID}

/-- The items of the document are woven, and what it refers to are items. -/
structure Woven (d : Doc) (ord : List ID) : Prop where
  gapless : d.store.Gapless
  weave : Weave d.left d.right ord
  mem : ∀ {x}, x ∈ ord ↔ ∃ it, d.Stored it ∧ it.id = x
  start : ∀ {p x}, d.start p = some x → x ∈ ord
  mapItems : ∀ {p k x}, d.mapItems p k = some x →
    ∃ it, d.Stored it ∧ it.id = x ∧ it.hasParentSub = true

theorem Woven.empty : Doc.empty.Woven [] where
  gapless := .empty
  weave := .empty
  mem := by simp [Stored, Doc.empty, StructStore.structs]
  start := nofun
  mapItems := nofun

theorem replace_mapItems {head tail : Item} {n : ℕ} {p : TypeID} {k : Bytes}
    (h : (d.replace it head tail n).mapItems p k = some x) :
    d.mapItems p k = some x ∨ x = tail.id ∧ it.hasParentSub = true := by
  cases hp : it.parent with
  | none =>
    simp only [replace, hp] at h
    exact .inl h
  | some q =>
    simp only [replace, hp] at h
    split at h
    next hlast =>
      by_cases hq : p = q
      · subst hq
        rw [Function.update_self, Function.update_apply] at h
        split at h
        · exact .inr ⟨(Option.some.inj h).symm, (Bool.and_eq_true_iff.1 hlast).1⟩
        · exact .inl h
      · rw [Function.update_of_ne hq] at h
        exact .inl h
    next => exact .inl h

/-- An item that is cut in two is followed by its second half. -/
theorem Woven.split (h : d.Woven ord) {A B : List Struct} {k : ℕ} {hc tc : Content}
    (hs : d.store.structs it.id.client = A ++ .item it :: B)
    (hsplice : it.content.splice k = .ok (hc, tc)) (h0 : 0 < k) (hk : k < it.len) :
    ∃ ord', (d.replace it (it.head hc) (it.tail k tc) A.length).Woven ord' ∧ ∀ x ∈ ord, x ∈ ord' := by
  have hst : d.Stored it := by simp [Stored, hs]
  have hcut := Content.splice_cut hsplice hk.le
  have hnew : it.unit k ∉ ord := fun hm => by
    obtain ⟨c, hc, hid⟩ := h.mem.1 hm
    exact hst.id_ne_unit hc h.gapless h0 hk hid
  obtain ⟨P, Q, rfl⟩ := List.append_of_mem (h.mem.2 ⟨it, hst, rfl⟩)
  have hord : P ++ it.id :: Q = (P ++ [it.id]) ++ Q := by simp
  have hnd := h.weave.nodup
  refine ⟨(P ++ [it.id]) ++ it.unit k :: Q, ⟨(cuts_replace h.gapless hs hsplice h0 hk).gapless, ?_,
    fun {x} => ?_, fun {p x} hx => ?_, fun {p key x} hx => ?_⟩, fun x hx => ?_⟩
  · refine (hord ▸ h.weave).insert (L := some it.id) (R := d.right it.id) (by rwa [← hord])
      (by simp) (fun r hr => ?_) (by simp) (fun y => ?_) fun y => ?_
    · exact (Yata.before_insert_right (List.nodup_cons.1 (List.nodup_middle.1 hnd)).1).1
        (h.weave.forward hr)
    · rw [replace_left, Item.tail_id]
      by_cases hy : y = it.unit k
      · have hR : d.right it.id ≠ some y := fun hr => hnew (hy ▸ (h.weave.forward hr).mem_right)
        rw [if_pos hy, if_neg hR, if_pos hy]
      · rw [if_neg hy, if_neg hy]
    · rw [replace_right, Item.tail_id]
      by_cases hy : y = it.id
      · have hne : it.id ≠ it.unit k := fun heq => hnew (heq ▸ h.mem.2 ⟨it, hst, rfl⟩)
        subst hy
        rw [if_pos rfl, if_neg hne, if_pos rfl]
      · have hy' : some it.id ≠ some y := fun heq => hy (Option.some.inj heq).symm
        rw [if_neg hy, if_neg hy']
  · simp only [stored_replace h.gapless hs, List.mem_append, List.mem_cons, List.not_mem_nil,
      or_false]
    have hmem := h.mem (x := x)
    simp only [List.mem_append, List.mem_cons] at hmem
    constructor
    · rintro ((hx | rfl) | rfl | hx)
      · obtain ⟨c, hc, hid⟩ := hmem.1 (.inl hx)
        by_cases hci : c = it
        · exact ⟨it.head _, .inr (.inl rfl), by rw [Item.head_id, ← hid, hci]⟩
        · exact ⟨c, .inl ⟨hc, hci⟩, hid⟩
      · exact ⟨it.head _, .inr (.inl rfl), rfl⟩
      · exact ⟨it.tail k _, .inr (.inr rfl), rfl⟩
      · obtain ⟨c, hc, hid⟩ := hmem.1 (.inr (.inr hx))
        by_cases hci : c = it
        · exact ⟨it.head _, .inr (.inl rfl), by rw [Item.head_id, ← hid, hci]⟩
        · exact ⟨c, .inl ⟨hc, hci⟩, hid⟩
    · rintro ⟨c, ⟨hc, -⟩ | rfl | rfl, hid⟩
      · have := hmem.2 ⟨c, hc, hid⟩
        tauto
      · exact .inl (.inr hid.symm)
      · exact .inr (.inl hid.symm)
  · have := h.start hx
    simp only [List.mem_append, List.mem_cons] at this ⊢
    tauto
  · rcases replace_mapItems hx with hx | ⟨rfl, hkey⟩
    · obtain ⟨c, hc, hid, hkey⟩ := h.mapItems hx
      by_cases hci : c = it
      · exact ⟨it.head _, (stored_replace h.gapless hs).2 (.inr (.inl rfl)),
          by rw [Item.head_id, ← hid, hci], hci ▸ hkey⟩
      · exact ⟨c, (stored_replace h.gapless hs).2 (.inl ⟨hc, hci⟩), hid, hkey⟩
    · exact ⟨it.tail k _, (stored_replace h.gapless hs).2 (.inr (.inr rfl)), rfl, hkey⟩
  · simp only [List.mem_append, List.mem_cons] at hx ⊢
    tauto

theorem Woven.edits (h : d.Woven ord) (he : Edits d d') :
    ∃ ord', d'.Woven ord' ∧ ∀ x ∈ ord, x ∈ ord' := by
  induction he with
  | refl => exact ⟨ord, h, fun _ hx => hx⟩
  | split _ hs hsplice h0 hk ih =>
    obtain ⟨ord₁, h₁, hsub⟩ := ih
    obtain ⟨ord₂, h₂, hsub'⟩ := h₁.split hs hsplice h0 hk
    exact ⟨ord₂, h₂, fun x hx => hsub' x (hsub x hx)⟩
  | delete _ _ ih =>
    obtain ⟨ord₁, h₁, hsub⟩ := ih
    exact ⟨ord₁, ⟨h₁.gapless, h₁.weave, h₁.mem, h₁.start, h₁.mapItems⟩, hsub⟩
  | held ds _ ih =>
    obtain ⟨ord₁, h₁, hsub⟩ := ih
    exact ⟨ord₁, ⟨h₁.gapless, h₁.weave, h₁.mem, h₁.start, h₁.mapItems⟩, hsub⟩

/-! ### Walks -/

theorem Woven.length_le (h : d.Woven ord) : ord.length ≤ d.size :=
  length_le_size h.weave.nodup fun _ hx => h.mem.1 hx

theorem Woven.path (h : d.Woven ord) (hx : x ∈ ord) :
    ∃ l, Path d.right (some x) l ∧ l.length ≤ d.size ∧ ∀ y ∈ l, y ∈ ord := by
  obtain ⟨l, hl, hlen, hmem⟩ := h.weave.exists_path hx
  exact ⟨l, hl, hlen.trans h.length_le, hmem⟩

theorem leftmost_of_path {l : List ID} {o : Option ID} (h : Path d.left o l) {fuel : ℕ}
    (hfuel : l.length ≤ fuel + 1) : d.leftmost fuel o = l.getLast? := by
  induction h generalizing fuel with
  | nil => cases fuel <;> rfl
  | @cons x l hl ih =>
    cases hx : d.left x with
    | none =>
      rw [hx] at hl
      cases hl
      cases fuel <;> simp [leftmost, hx]
    | some y =>
      rw [hx] at hl ih
      cases hl with
      | @cons _ l hl =>
        obtain ⟨fuel, rfl⟩ : ∃ n, fuel = n + 1 := ⟨fuel - 1, by simp at hfuel; omega⟩
        rw [leftmost, hx]
        simp only
        rw [ih (by simpa using hfuel), List.getLast?_cons_cons]

theorem path_getLast {next : ID → Option ID} {o : Option ID} {l : List ID} (h : Path next o l)
    {y : ID} (hy : l.getLast? = some y) : next y = none := by
  induction h with
  | nil => cases hy
  | @cons x l hl ih =>
    cases l with
    | nil =>
      obtain rfl : x = y := by simpa using hy
      cases hx : next x with
      | none => rfl
      | some z =>
        rw [hx] at hl
        cases hl
    | cons z l =>
      rw [List.getLast?_cons_cons] at hy
      exact ih hy

theorem Woven.exists_path_left (h : d.Woven ord) (hx : x ∈ ord) :
    ∃ l, Path d.left (some x) l ∧ l.length ≤ d.size ∧ ∀ y ∈ l, y ∈ ord := by
  obtain ⟨l, hl, hlen, hmem⟩ := h.weave.exists_path_left hx
  exact ⟨l, hl, hlen.trans h.length_le, hmem⟩

/-- Walking to the left ends at an item that has nothing to its left, before the bound of the
model. -/
theorem Woven.leftmost (h : d.Woven ord) (hx : x ∈ ord) :
    ∃ y ∈ ord, d.leftmost d.size (some x) = some y ∧ d.left y = none := by
  obtain ⟨l, hl, hlen, hmem⟩ := h.exists_path_left hx
  have hne : l ≠ [] := by
    rintro rfl
    cases hl
  have hlast := List.getLast?_eq_getLast_of_ne_nil hne
  rw [leftmost_of_path hl (by omega)]
  exact ⟨_, hmem _ (List.getLast_mem hne), hlast, path_getLast hl hlast⟩

theorem Woven.listHead (h : d.Woven ord) {l : ListID} (hx : d.listHead l = some x) : x ∈ ord := by
  unfold Doc.listHead at hx
  cases hk : l.key with
  | none =>
    rw [hk] at hx
    exact h.start hx
  | some k =>
    simp only [hk] at hx
    cases hm : d.mapItems l.parent k with
    | none =>
      rw [hm, leftmost_of_path .nil (Nat.zero_le _)] at hx
      cases hx
    | some y =>
      obtain ⟨c, hc, hid, -⟩ := h.mapItems hm
      obtain ⟨z, hz, heq, -⟩ := h.leftmost (h.mem.2 ⟨c, hc, hid⟩)
      rw [hm, heq] at hx
      exact Option.some.inj hx ▸ hz

theorem Woven.after (h : d.Woven ord) {l : ListID} {left : Option ID}
    (hx : d.after l left = some x) : x ∈ ord := by
  cases left with
  | none => exact h.listHead hx
  | some y => exact (h.weave.forward hx).mem_right

/-! ### Integrating -/

/-- The place that is found for an item is behind an item. -/
theorem Woven.conflictLoop (h : d.Woven ord) (it : Item) (right : Option ID) (fuel : ℕ)
    {o left : Option ID} (before conflicting : List ID) (ho : ∀ y, o = some y → y ∈ ord)
    (hleft : ∀ y, left = some y → y ∈ ord) :
    ∀ y, d.conflictLoop it right fuel o left before conflicting = some y → y ∈ ord := by
  induction fuel generalizing o left before conflicting with
  | zero => exact hleft
  | succ fuel ih =>
    unfold Doc.conflictLoop
    cases o with
    | none => exact hleft
    | some oid =>
      have hnext : ∀ y, d.right oid = some y → y ∈ ord := fun y hy => (h.weave.forward hy).mem_right
      have hoid : ∀ y, some oid = some y → y ∈ ord := ho
      dsimp only
      split
      · exact hleft
      split
      · exact hleft
      split
      · split
        · exact ih _ _ hnext hoid
        · split
          · exact hleft
          · exact ih _ _ hnext hleft
      · split
        · exact hleft
        · split
          · split
            · exact ih _ _ hnext hleft
            · exact ih _ _ hnext hoid
          · exact hleft

theorem Woven.gc (h : d.Woven ord) {id : ID} {n : ℕ} (hpos : 0 < n)
    (hs : d.state id.client = id.clock) :
    { d with store := d.store.append (.gc id n) }.Woven ord := by
  have happ := StructStore.structs_append (show d.store.state (Struct.gc id n).id.client = _ from hs)
  have hst : ∀ c, { d with store := d.store.append (.gc id n) }.Stored c ↔ d.Stored c := fun c => by
    unfold Stored
    rw [happ]
    split <;> simp
  refine ⟨h.gapless.append hpos rfl, h.weave, fun {x} => ?_, h.start, fun hx => ?_⟩
  · simp only [hst, h.mem]
  · simpa only [hst] using h.mapItems hx

/-- Linking an item behind an item, or in front of a list. -/
theorem Woven.link (h : d.Woven ord) (hpos : 0 < it.len) (hs : d.state it.id.client = it.id.clock)
    (p : TypeID) {left : Option ID} (hleft : ∀ y, left = some y → y ∈ ord) :
    ∃ ord', (d.link it p left).Woven ord' := by
  have happ := StructStore.structs_append (show d.store.state (Struct.item it).id.client = _ from hs)
  have hst : ∀ c, (d.link it p left).Stored c ↔ d.Stored c ∨ c = it := fun c => by
    unfold Stored
    rw [link_store, happ]
    split
    next => simp
    next hc =>
      refine (or_iff_left ?_).symm
      rintro rfl
      exact hc rfl
  have hnew : it.id ∉ ord := fun hm => by
    obtain ⟨c, hc, hid⟩ := h.mem.1 hm
    have := hc.has h.gapless (hc.id_mem_units h.gapless)
    rw [hid, Has, hs] at this
    exact lt_irrefl _ this
  -- the place of the item in the order: behind its left neighbour, or in front
  obtain ⟨A, B, hord, hA, hB⟩ : ∃ A B, ord = A ++ B ∧ (∀ y, left = some y → y ∈ A) ∧
      ∀ y, d.after ⟨p, it.key⟩ left = some y → y ∈ B := by
    cases left with
    | none => exact ⟨[], ord, rfl, nofun, fun y hy => h.after hy⟩
    | some l =>
      obtain ⟨A, B, rfl⟩ := List.append_of_mem (hleft l rfl)
      refine ⟨A ++ [l], B, by simp, by simp, fun y hy => ?_⟩
      exact (Yata.before_insert_right (List.nodup_cons.1 (List.nodup_middle.1 h.weave.nodup)).1).1
        (h.weave.forward hy)
  subst hord
  refine ⟨A ++ it.id :: B, ⟨?_, ?_, fun {x} => ?_, fun {q x} hx => ?_, fun {q k x} hx => ?_⟩⟩
  · rw [link_store]
    exact h.gapless.append hpos rfl
  · refine h.weave.insert hnew hA hB (fun l hl => by rw [hl]; rfl) (fun y => ?_) fun y => ?_
    · exact link_left d it p left y
    · exact link_right d it p left y
  · simp only [hst, or_and_right, exists_or, exists_eq_left, ← h.mem, List.mem_append,
      List.mem_cons]
    rw [or_left_comm, or_comm, or_assoc, eq_comm (a := x)]
    tauto
  · rw [link_start] at hx
    split at hx
    · simp [Option.some.inj hx]
    · have := h.start hx
      simp only [List.mem_append, List.mem_cons] at this ⊢
      tauto
  · rw [link_mapItems] at hx
    split at hx
    next hlast => exact ⟨it, (hst it).2 (.inr rfl), Option.some.inj hx, hlast.2.1⟩
    next =>
      obtain ⟨c, hc, hc'⟩ := h.mapItems hx
      exact ⟨c, (hst c).2 (.inl hc), hc'⟩

theorem Woven.resolve (h : d.Woven ord) {left right : Option ID}
    (hr : d.resolve it = some (d', it', left, right)) :
    ∃ ord', d'.Woven ord' ∧ ∀ y, left = some y → y ∈ ord' := by
  obtain ⟨-, he, l, rfl, hl, -⟩ := resolve_cases h.gapless hr
  cases l with
  | none =>
    obtain ⟨ord', h', -⟩ := h.edits he
    exact ⟨ord', h', nofun⟩
  | some n =>
    obtain ⟨d₁, -, he₁, he₂, hst⟩ := hl n rfl
    obtain ⟨ord₁, h₁, -⟩ := h.edits he₁
    obtain ⟨ord', h', hsub⟩ := h₁.edits he₂
    refine ⟨ord', h', ?_⟩
    rintro y ⟨⟩
    exact hsub _ (h₁.mem.2 ⟨n, hst, rfl⟩)

theorem Woven.trim (h : d.Woven ord) {left : Option ID} {offset : ℕ}
    {r : Option (Item × Option ID)} (hleft : ∀ y, left = some y → y ∈ ord)
    (ht : d.trim it left offset = (d', r)) :
    ∃ ord', d'.Woven ord' ∧ ∀ it' l, r = some (it', l) → ∀ y, l = some y → y ∈ ord' := by
  obtain ⟨-, he, hcases⟩ := trim_cases h.gapless ht
  obtain ⟨ord', h', hsub⟩ := h.edits he
  refine ⟨ord', h', fun it' l hr y hy => ?_⟩
  obtain ⟨-, -, rfl⟩ | ⟨-, n, hd, tl, hst, rfl, -⟩ := hcases it' l hr
  · exact hsub y (hleft y hy)
  · exact h'.mem.2 ⟨n, hst, Option.some.inj hy⟩

/-- Integrating a struct keeps the items woven. -/
theorem Woven.integrateHead (h : d.Woven ord) {st : Struct} (hst : d.integrateHead st = some d') :
    ∃ ord', d'.Woven ord' := by
  cases st with
  | skip id n =>
    cases hst
    exact ⟨ord, h⟩
  | gc id n =>
    cases turn_of_integrateHead h.gapless hst with
    | known => exact ⟨ord, h⟩
    | gc h1 h2 => exact ⟨ord, h.gc (by omega) rfl⟩
  | item it =>
    obtain ⟨-, rfl⟩ | ⟨d₁, it₁, left, right, d₂, r, hres, htrim, -, hcases⟩ :=
      integrateHead_item_cases h.gapless hst
    · exact ⟨ord, h⟩
    obtain ⟨ord₁, h₁, hleft₁⟩ := h.resolve hres
    obtain ⟨ord₂, h₂, hleft₂⟩ := h₁.trim hleft₁ htrim
    obtain ⟨-, -, rfl⟩ | ⟨it₂, left₂, rfl, hn, -, ⟨-, rfl⟩ | ⟨p, -, rfl⟩⟩ := hcases
    · exact ⟨ord₂, h₂⟩
    · exact ⟨ord₂, h₂.gc hn.pos hn.state_eq⟩
    · have hleft := hleft₂ it₂ left₂ rfl
      refine h₂.link hn.pos hn.state_eq p ?_
      split
      · exact h₂.conflictLoop _ _ _ _ _ (fun y hy => h₂.after hy) hleft
      · exact hleft

theorem Woven.turns (h : d.Woven ord) {l : List Struct} (ht : Turns d l d') :
    ∃ ord', d'.Woven ord' := by
  induction ht with
  | nil => exact ⟨ord, h⟩
  | step _ hst ih =>
    obtain ⟨ord₁, h₁⟩ := ih
    exact h₁.integrateHead hst
  | hold p _ ih =>
    obtain ⟨ord₁, h₁⟩ := ih
    exact ⟨ord₁, h₁.gapless, h₁.weave, h₁.mem, h₁.start, h₁.mapItems⟩

end Doc

end YCollab.Crdt
