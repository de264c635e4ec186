import YCollab.Crdt.Cuts
import YCollab.Crdt.Shape
import YCollab.Data.Linked
import YCollab.Yata.Runs

/-!
# What a document represents

`Rep H d w ch` says that the document `d` has integrated the units `w` of a history of shape `H`,
in that order: the store holds items that fit the shape, each list of items (`ch`) is linked in the
order that inserting the units of `w` one by one would give, and the types point at the ends of
their lists.

Splitting an item outside a surrogate pair changes the items but nothing that is represented
(`Rep.split`), so `getItemCleanStart` and `getItemCleanEnd` find the boundary they ask for
(`Rep.cleanStart`, `Rep.cleanEnd`).
-/

namespace YCollab.Crdt

open Yata Yata.Ops

/-- The document has integrated the units `w`, in this order; `ch` are its lists of items. -/
structure Rep (H : Shape) (d : Doc) (w : List ID) (ch : ListID → List Item) : Prop where
  gapless : d.store.Gapless
  items : ∀ c, ∀ st ∈ d.store.structs c, ∃ it, st = .item it ∧ H.FitsStored it
  causal : Causal H.Past H.mem w
  mem : ∀ x, x ∈ w ↔ d.Has x
  nodup : ∀ l, ((ch l).map Item.id).Nodup
  linked : ∀ l, Linked d.left d.right ((ch l).map Item.id)
  head : ∀ l, l.key = none → d.start l.parent = ((ch l).map Item.id).head?
  last : ∀ l k, l.key = some k → d.mapItems l.parent k = ((ch l).map Item.id).getLast?
  stored : ∀ l it, it ∈ ch l ↔ d.Stored it ∧ H.list it.id = l
  flat : ∀ l, (ch l).flatMap Item.units = H.ops.insertAll (w.filter fun x => H.list x = l)

variable {H : Shape} {d : Doc} {w : List ID} {ch : ListID → List Item} {it it' : Item} {x : ID}

namespace Rep

theorem fits (h : Rep H d w ch) (hs : d.Stored it) : H.FitsStored it := by
  obtain ⟨it', heq, hf⟩ := h.items _ _ hs
  obtain rfl := Struct.item.inj heq
  exact hf

theorem exists_stored (h : Rep H d w ch) (hx : d.Has x) :
    ∃ it, d.Stored it ∧ x ∈ it.units := by
  obtain ⟨A, st, B, hs, hlo, hhi⟩ := h.gapless.exists_cover hx
  obtain ⟨it, rfl, -⟩ := h.items x.client st (by simp [hs])
  have hrun := hs ▸ h.gapless.run x.client
  obtain ⟨-, hid, -⟩ := hrun.split
  have hc : it.id.client = x.client := by simpa using congrArg ID.client hid
  exact ⟨it, by simp [Doc.Stored, hc, hs], Item.mem_units.2 ⟨hc.symm, hlo, hhi⟩⟩

/-! ### Splitting an item -/

section Split

variable {A B : List Struct} {P Q : List Item} {k : ℕ} {hc tc : Content}

theorem tail_not_mem (h : Rep H d w ch) (hs : d.Stored it) (h0 : 0 < k) (hk : k < it.len)
    (l : ListID) : it.unit k ∉ (ch l).map Item.id := by
  intro hm
  obtain ⟨it', hit', hid⟩ := List.mem_map.1 hm
  exact hs.id_ne_unit ((h.stored l it').1 hit').1 h.gapless h0 hk hid

theorem list_of_mem (h : Rep H d w ch) {l : ListID} {a : ID} (ha : a ∈ (ch l).map Item.id) :
    H.list a = l := by
  obtain ⟨it, hit, rfl⟩ := List.mem_map.1 ha
  exact ((h.stored l it).1 hit).2

theorem split_linked (h : Rep H d w ch) (hs : d.Stored it) (h0 : 0 < k) (hk : k < it.len)
    (hl : ch (H.list it.id) = P ++ it :: Q) (n : ℕ) (l : ListID) :
    Linked (d.replace it (it.head hc) (it.tail k tc) n).left
      (d.replace it (it.head hc) (it.tail k tc) n).right
      ((Function.update ch (H.list it.id) (P ++ it.head hc :: it.tail k tc :: Q) l).map
        Item.id) := by
  have hids : (ch (H.list it.id)).map Item.id = P.map Item.id ++ it.id :: Q.map Item.id := by
    simp [hl]
  have hlink := hids ▸ h.linked (H.list it.id)
  have hnext : d.right it.id = (Q.map Item.id).head? := hlink.right_eq
  have hx := h.tail_not_mem hs h0 hk
  have hne : it.id ≠ it.unit k := fun heq => by
    have := congrArg ID.clock heq
    simp [Item.unit] at this
    omega
  by_cases hll : l = H.list it.id
  · -- the tail is a new node right after the head
    subst hll
    have hx' := hids ▸ hx (H.list it.id)
    have hn := hids ▸ h.nodup (H.list it.id)
    have hlink' : Linked d.left d.right ((P.map Item.id ++ [it.id]) ++ Q.map Item.id) := by
      simpa using hlink
    have hn' : ((P.map Item.id ++ [it.id]) ++ it.unit k :: Q.map Item.id).Nodup := by
      rw [List.nodup_middle]
      exact List.nodup_cons.2 ⟨by simpa using hx', by simpa using hn⟩
    simp only [Function.update_self, List.map_append, List.map_cons, Item.head_id, Item.tail_id]
    rw [List.append_cons]
    refine hlink'.insert hn' (fun y => ?_) fun y => ?_
    · rw [Doc.replace_left, hnext]
      simp
    · rw [Doc.replace_right, hnext]
      by_cases hy : y = it.id
      · simp [hy, hne]
      · simp [hy, Ne.symm hy]
  · -- another list shares no node with this one
    rw [Function.update_of_ne hll]
    have hxa : ∀ a ∈ (ch l).map Item.id, a ≠ it.unit k := fun a ha heq => hx l (heq ▸ ha)
    refine (h.linked l).congr (fun a ha => ?_) fun a ha => ?_
    · rw [Doc.replace_left, Item.tail_id, if_neg (hxa a ha), if_neg]
      intro hnext'
      have hm : a ∈ (ch (H.list it.id)).map Item.id := by
        rw [hids]
        exact List.mem_append_right _ (List.mem_cons_of_mem _ (List.mem_of_head? (hnext ▸ hnext')))
      exact hll ((h.list_of_mem ha).symm.trans (h.list_of_mem hm))
    · have hid : a ≠ it.id := fun heq => hll ((h.list_of_mem ha).symm.trans (congrArg _ heq))
      rw [Doc.replace_right, if_neg hid, Item.tail_id, if_neg (hxa a ha)]

theorem split_last (h : Rep H d w ch) (hst : d.Stored it) (hl : ch (H.list it.id) = P ++ it :: Q)
    (n : ℕ) {l : ListID} {key : Bytes} (hkey : l.key = some key) :
    (d.replace it (it.head hc) (it.tail k tc) n).mapItems l.parent key =
      ((Function.update ch (H.list it.id) (P ++ it.head hc :: it.tail k tc :: Q) l).map
        Item.id).getLast? := by
  have hf := h.fits hst
  have hids : (ch (H.list it.id)).map Item.id = P.map Item.id ++ it.id :: Q.map Item.id := by
    simp [hl]
  have hnext : d.right it.id = (Q.map Item.id).head? := (hids ▸ h.linked (H.list it.id)).right_eq
  have hlast := h.last l key hkey
  simp only [Doc.replace, hf.parent]
  by_cases hll : l = H.list it.id
  · subst hll
    -- the tail is the newest entry if the item was
    have hsub := Item.key_eq_some.1 (hf.key.trans hkey)
    rw [hids] at hlast
    rw [Function.update_self, hsub.1, hsub.2, hnext]
    cases Q with
    | nil => simp
    | cons q Q => simp [hlast, List.getLast?_cons_cons]
  · rw [Function.update_of_ne hll, ← hlast]
    split
    next hsub =>
      simp only [Bool.and_eq_true] at hsub
      by_cases hp : l.parent = (H.list it.id).parent
      · -- another key of the same type
        have hk' : it.parentSub ≠ key := fun heq => hll <| ListID.ext hp <|
          hkey.trans ((Item.key_eq_some.2 ⟨hsub.1, heq⟩).symm.trans hf.key)
        rw [hp, Function.update_self, Function.update_of_ne (Ne.symm hk')]
      · rw [Function.update_of_ne hp]
    next => rfl

/-- Cutting an item outside a surrogate pair changes nothing that is represented. -/
theorem split (h : Rep H d w ch) (hH : H.Lawful)
    (hs : d.store.structs it.id.client = A ++ .item it :: B) (h0 : 0 < k) (hk : k < it.len)
    (hlow : ¬H.low (it.unit k)) (hcut : it.content.Cut hc tc k)
    (hl : ch (H.list it.id) = P ++ it :: Q) :
    Rep H (d.replace it (it.head hc) (it.tail k tc) A.length) w
      (Function.update ch (H.list it.id) (P ++ it.head hc :: it.tail k tc :: Q)) := by
  have hst : d.Stored it := by simp [Doc.Stored, hs]
  have hf := h.fits hst
  have hlist : H.list (it.tail k tc).id = H.list it.id := hf.list_eq hH hk
  refine ⟨h.gapless.splitAt hs (Doc.halves hcut h0 hk), fun c st hm => ?_, h.causal, fun x => ?_,
    fun l => ?_, h.split_linked hst h0 hk hl A.length, fun l hkey => ?_,
    fun l key hkey => h.split_last hst hl A.length hkey, fun l it' => ?_, fun l => ?_⟩
  · simp only [Doc.replace, StructStore.structs_splitAt hs (Item.head_id it hc)] at hm
    split at hm
    · simp only [List.mem_append, List.mem_cons] at hm
      rcases hm with hm | rfl | rfl | hm
      · exact h.items _ st (hs ▸ List.mem_append_left _ hm)
      · exact ⟨_, rfl, hf.head hcut h0 hk.le hlow⟩
      · exact ⟨_, rfl, hf.tail hH hcut h0 hk⟩
      · exact h.items _ st (hs ▸ List.mem_append_right _ (List.mem_cons_of_mem _ hm))
    · exact h.items c st hm
  · rw [h.mem, Doc.has_replace h.gapless hs hcut h0 hk]
  · by_cases hll : l = H.list it.id
    · subst hll
      have hx := h.tail_not_mem hst h0 hk (H.list it.id)
      have hn := h.nodup (H.list it.id)
      rw [hl] at hx hn
      simp only [Function.update_self, List.map_append, List.map_cons, Item.head_id,
        Item.tail_id] at hx hn ⊢
      rw [List.append_cons, List.nodup_middle]
      exact List.nodup_cons.2 ⟨by simpa using hx, by simpa using hn⟩
    · rw [Function.update_of_ne hll]
      exact h.nodup l
  · refine (h.head l hkey).trans ?_
    by_cases hll : l = H.list it.id
    · subst hll
      rw [hl, Function.update_self]
      simp [List.head?_append]
    · rw [Function.update_of_ne hll]
  · rw [Doc.stored_replace h.gapless hs]
    by_cases hll : l = H.list it.id
    · subst hll
      have hn := h.nodup (H.list it.id)
      have hmem := h.stored (H.list it.id) it'
      rw [hl] at hn hmem
      have hself : it ∉ P ∧ it ∉ Q := by
        rw [List.map_append, List.map_cons, List.nodup_middle] at hn
        have := (List.nodup_cons.1 hn).1
        rw [← List.map_append] at this
        exact ⟨fun hm => this (List.mem_map_of_mem (List.mem_append_left _ hm)),
          fun hm => this (List.mem_map_of_mem (List.mem_append_right _ hm))⟩
      simp only [Function.update_self, List.mem_append, List.mem_cons] at hmem ⊢
      constructor
      · rintro (hm | rfl | rfl | hm)
        · have := hmem.1 (.inl hm)
          exact ⟨.inl ⟨this.1, fun heq => hself.1 (heq ▸ hm)⟩, this.2⟩
        · exact ⟨.inr (.inl rfl), rfl⟩
        · exact ⟨.inr (.inr rfl), hlist⟩
        · have := hmem.1 (.inr (.inr hm))
          exact ⟨.inl ⟨this.1, fun heq => hself.2 (heq ▸ hm)⟩, this.2⟩
      · rintro ⟨⟨hm, hne⟩ | rfl | rfl, hli⟩
        · exact (hmem.2 ⟨hm, hli⟩).imp_right fun hm' => .inr (.inr (hm'.resolve_left hne))
        · exact .inr (.inl rfl)
        · exact .inr (.inr (.inl rfl))
    · rw [Function.update_of_ne hll, h.stored]
      constructor
      · exact fun h => ⟨.inl ⟨h.1, fun heq => hll (heq ▸ h.2.symm)⟩, h.2⟩
      · rintro ⟨⟨hm, -⟩ | rfl | rfl, hli⟩
        · exact ⟨hm, hli⟩
        · exact absurd hli.symm hll
        · exact absurd (hli.symm.trans hlist) hll
  · by_cases hll : l = H.list it.id
    · subst hll
      rw [← h.flat, Function.update_self, hl]
      simp [Item.units_split hcut hk.le]
    · rw [Function.update_of_ne hll]
      exact h.flat l

theorem splitItem (h : Rep H d w ch) (hH : H.Lawful)
    (hs : d.store.structs it.id.client = A ++ .item it :: B) (h0 : 0 < k) (hk : k < it.len)
    (hlow : ¬H.low (it.unit k)) :
    ∃ d' head tail ch', d.splitItem it k A.length = .ok (d', head, tail) ∧ Rep H d' w ch' := by
  have hst : d.Stored it := by simp [Doc.Stored, hs]
  obtain ⟨hc, tc, hsplice, hcut⟩ := (h.fits hst).splice h0 hk hlow
  obtain ⟨P, Q, hl⟩ := List.append_of_mem ((h.stored (H.list it.id) it).2 ⟨hst, rfl⟩)
  refine ⟨_, it.head hc, it.tail k tc, _, ?_, h.split hH hs h0 hk hlow hcut hl⟩
  rw [Doc.splitItem, hsplice]

theorem exists_find (h : Rep H d w ch) (hx : d.Has x) :
    ∃ A it B, d.store.structs it.id.client = A ++ .item it :: B ∧ d.store.find x = .ok A.length ∧
      (d.store.structs x.client)[A.length]? = some (.item it) ∧ x ∈ it.units := by
  obtain ⟨it, hst, hx⟩ := h.exists_stored hx
  obtain ⟨hcl, hlo, hhi⟩ := Item.mem_units.1 hx
  obtain ⟨A, B, hs⟩ := List.append_of_mem hst
  have hs' := hcl ▸ hs
  exact ⟨A, it, B, hs, h.gapless.find_eq hs' hlo hhi, by simp [hs'], hx⟩

theorem cleanEnd (h : Rep H d w ch) (hH : H.Lawful) (hx : d.Has x) (hlow : ¬H.low x.next) :
    ∃ d' it ch', d.getItemCleanEnd x = .ok (d', it) ∧ Rep H d' w ch' := by
  obtain ⟨A, it, B, hs, hf, hi, hx⟩ := h.exists_find hx
  obtain ⟨hcl, hlo, hhi⟩ := Item.mem_units.1 hx
  unfold Doc.getItemCleanEnd
  simp only [hf, hi]
  split
  next => exact ⟨d, it, ch, rfl, h⟩
  next hne =>
    have hunit : it.unit (x.clock - it.id.clock + 1) = x.next :=
      ID.ext hcl.symm (by simp [Item.unit, ID.next]; omega)
    obtain ⟨d', head, tail, ch', hsplit, hrep⟩ :=
      h.splitItem hH hs (Nat.succ_pos (x.clock - it.id.clock)) (by omega) (hunit ▸ hlow)
    exact ⟨d', head, ch', by rw [hsplit], hrep⟩

theorem cleanStart (h : Rep H d w ch) (hH : H.Lawful) (hx : d.Has x) (hlow : ¬H.low x) :
    ∃ d' it ch', d.getItemCleanStart x = .ok (d', it) ∧ Rep H d' w ch' := by
  obtain ⟨A, it, B, hs, hf, hi, hx⟩ := h.exists_find hx
  obtain ⟨hcl, hlo, hhi⟩ := Item.mem_units.1 hx
  unfold Doc.getItemCleanStart
  simp only [hf, hi]
  split
  next => exact ⟨d, it, ch, rfl, h⟩
  next hne =>
    have hunit : it.unit (x.clock - it.id.clock) = x :=
      ID.ext hcl.symm (by simp [Item.unit]; omega)
    obtain ⟨d', head, tail, ch', hsplit, hrep⟩ :=
      h.splitItem hH hs (Nat.pos_of_ne_zero hne) (by omega) (hunit.symm ▸ hlow)
    exact ⟨d', tail, ch', by rw [hsplit], hrep⟩

end Split

end Rep

end YCollab.Crdt
